import Mathlib.Data.Finset.Sort
import Mathlib.Data.List.Sort

/-!
# Lists in groups

A list whose elements are in the order of a key is put together again from its groups, taken
in the order of their keys (`flatMap_filter_key`); a key without elements has an empty group.
So two such lists with the same groups are the same (`eq_of_filter_key`).

`dedupByKey` drops all but the first of neighbours with one key.  Where no key comes twice,
it has nothing to do.
-/

namespace Crabstash.Groups

variable {κ α : Type*} [LinearOrder κ]

/-- The elements of the smallest key come first. -/
theorem filter_append_filter {key : α → κ} {k : κ} {l : List α}
    (hsorted : l.Pairwise fun a b => key a ≤ key b) (hmin : ∀ a ∈ l, k ≤ key a) :
    (l.filter fun a => key a = k) ++ (l.filter fun a => key a ≠ k) = l := by
  induction l with
  | nil => rfl
  | cons a l ih =>
      obtain ⟨hfirst, hsorted⟩ := List.pairwise_cons.mp hsorted
      rw [List.forall_mem_cons] at hmin
      by_cases heq : key a = k
      · have ih := ih hsorted hmin.2
        simp only [List.filter_cons, heq, ne_eq, not_true_eq_false, decide_true, decide_false,
          if_true, Bool.false_eq_true, if_false, List.cons_append]
        exact congrArg (a :: ·) ih
      · -- every later key is larger, too
        have hlarger : ∀ b ∈ a :: l, key b ≠ k := by
          intro b hb
          rcases List.mem_cons.mp hb with rfl | hb
          · exact heq
          · have hlt : k < key a := lt_of_le_of_ne hmin.1 (Ne.symm heq)
            exact (hlt.trans_le (hfirst b hb)).ne'
        have hnone : ((a :: l).filter fun b => key b = k) = [] := by
          rw [List.filter_eq_nil_iff]
          intro b hb
          simpa using hlarger b hb
        have hall : ((a :: l).filter fun b => key b ≠ k) = a :: l := by
          rw [List.filter_eq_self]
          intro b hb
          simpa using hlarger b hb
        rw [hnone, hall, List.nil_append]

theorem flatMap_filter_key {key : α → κ} {keys : List κ} (hkeys : keys.Pairwise (· < ·))
    {l : List α} (hsorted : l.Pairwise fun a b => key a ≤ key b)
    (hmem : ∀ a ∈ l, key a ∈ keys) :
    (keys.flatMap fun k => l.filter fun a => key a = k) = l := by
  induction keys generalizing l with
  | nil =>
      cases l with
      | nil => rfl
      | cons a l => exact absurd (hmem a (List.mem_cons_self ..)) List.not_mem_nil
  | cons k keys ih =>
      obtain ⟨hfirst, hkeys⟩ := List.pairwise_cons.mp hkeys
      -- the least key is at most that of any element
      have hmin : ∀ a ∈ l, k ≤ key a := by
        intro a ha
        rcases List.mem_cons.mp (hmem a ha) with heq | hin
        · exact heq.ge
        · exact (hfirst _ hin).le
      -- the later groups lose nothing with the elements of the first
      have hothers : ∀ k' ∈ keys,
          ((l.filter fun a => key a ≠ k).filter fun a => key a = k') =
            l.filter fun a => key a = k' := by
        intro k' hk'
        rw [List.filter_filter]
        apply List.filter_congr
        intro a _
        by_cases heq : key a = k'
        · have hne : key a ≠ k := heq ▸ (hfirst k' hk').ne'
          simp [heq, heq ▸ hne]
        · simp [heq]
      have hin : ∀ a ∈ l.filter (fun a => key a ≠ k), key a ∈ keys := by
        intro a ha
        rw [List.mem_filter] at ha
        have hne : key a ≠ k := by simpa using ha.2
        exact (List.mem_cons.mp (hmem a ha.1)).resolve_left hne
      have hrest := ih hkeys (hsorted.filter _) hin
      calc ((k :: keys).flatMap fun k => l.filter fun a => key a = k)
          = (l.filter fun a => key a = k) ++
              keys.flatMap fun k' => l.filter fun a => key a = k' := List.flatMap_cons
        _ = (l.filter fun a => key a = k) ++
              keys.flatMap fun k' => (l.filter fun a => key a ≠ k).filter fun a => key a = k' := by
            rw [List.flatMap_congr fun k' hk' => (hothers k' hk').symm]
        _ = (l.filter fun a => key a = k) ++ l.filter fun a => key a ≠ k := by rw [hrest]
        _ = l := filter_append_filter hsorted hmin

theorem eq_of_filter_key (key : α → κ) {l l' : List α}
    (hsorted : l.Pairwise fun a b => key a ≤ key b) (hsorted' : l'.Pairwise fun a b => key a ≤ key b)
    (hgroups : ∀ k, (l.filter fun a => key a = k) = l'.filter fun a => key a = k) : l = l' := by
  let keys := ((l ++ l').map key).toFinset.sort
  have hkeys : keys.Pairwise (· < ·) := (Finset.sortedLT_sort _).pairwise
  have hmem : ∀ a ∈ l ++ l', key a ∈ keys := by
    intro a ha
    rw [Finset.mem_sort, List.mem_toFinset]
    exact List.mem_map_of_mem ha
  have hleft := flatMap_filter_key hkeys hsorted fun a ha => hmem a (List.mem_append_left _ ha)
  have hright := flatMap_filter_key hkeys hsorted' fun a ha => hmem a (List.mem_append_right _ ha)
  calc l = keys.flatMap fun k => l.filter fun a => key a = k := hleft.symm
    _ = keys.flatMap fun k => l'.filter fun a => key a = k := by
        rw [List.flatMap_congr fun k _ => hgroups k]
    _ = l' := hright

/-! ## Neighbours with one key -/

/-- All but the first of neighbours with one key are dropped. -/
def dedupByKey (key : α → κ) : List α → List α
  | [] => []
  | a :: l =>
      match dedupByKey key l with
      | [] => [a]
      | b :: rest => if key a = key b then a :: rest else a :: b :: rest

theorem dedupByKey_eq_self {key : α → κ} {l : List α}
    (h : l.Pairwise fun a b => key a ≠ key b) : dedupByKey key l = l := by
  induction l with
  | nil => rfl
  | cons a l ih =>
      obtain ⟨hfirst, hrest⟩ := List.pairwise_cons.mp h
      rw [dedupByKey, ih hrest]
      cases l with
      | nil => rfl
      | cons b rest =>
          have hne : key a ≠ key b := hfirst b (List.mem_cons_self ..)
          simp only [hne, if_false]

end Crabstash.Groups

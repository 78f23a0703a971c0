import Mathlib.Data.List.Basic
import Mathlib.Order.Lattice
import Mathlib.Order.MinMax

/-!
# Interval trees

A binary search tree over intervals, ordered by a test on their starts, in which every
node also has the greatest end of its subtree.  A search leaves out a subtree whose ends
all lie before what is searched for, and the right of a node whose start lies behind it.

`mem_find` says what makes this right: an interval that is found by the test on
single entries (`hit`) is not one of those left out.  Both ways of leaving out are tests
that come with the search, so what has to hold of them is a hypothesis on each.

A search never finds anything twice, nor what is no hit (`find_sublist`).  Where leaving out
subtrees by their ends may be wrong, `find_eq_filter_iff` says when it is not: no node whose
own entry is a hit has a greatest end that counts as lying before.
-/

namespace Crabstash

/-- A tree; a node has its entry and the greatest end in its subtree. -/
inductive IntervalNodes (α τ : Type*) where
  | leaf
  | node (index : ℕ) (entry : α) (maxEnd : τ) (left right : IntervalNodes α τ)

namespace IntervalNodes

variable {α τ : Type*}

section

variable [LinearOrder τ] (less : α → α → Bool) (ending : α → τ)

/-- A new entry goes to the left of those it is less than. -/
def insert (index : ℕ) (entry : α) : IntervalNodes α τ → IntervalNodes α τ
  | leaf => node index entry (ending entry) leaf leaf
  | node i e m left right =>
      if less entry e then node i e (max m (ending entry)) (insert index entry left) right
      else node i e (max m (ending entry)) left (insert index entry right)

end

/-- The entries that the test is true of, without the subtrees left out. -/
def find (before : τ → Bool) (hit behind : α → Bool) : IntervalNodes α τ → List α
  | leaf => []
  | node _ e m left right =>
      if before m then []
      else
        find before hit behind left ++ (if hit e then [e] else []) ++
          if behind e then [] else find before hit behind right

/-- The entries of a tree from left to right. -/
def entries : IntervalNodes α τ → List α
  | leaf => []
  | node _ e _ left right => entries left ++ e :: entries right

/-- The numbers of the nodes. -/
def indices : IntervalNodes α τ → List ℕ
  | leaf => []
  | node i _ _ left right => i :: (indices left ++ indices right)

/-- The entries with the greatest ends of their subtrees. -/
def marked : IntervalNodes α τ → List (α × τ)
  | leaf => []
  | node _ e m left right => marked left ++ (e, m) :: marked right

@[simp] theorem map_fst_marked (t : IntervalNodes α τ) : t.marked.map Prod.fst = t.entries := by
  induction t with
  | leaf => rfl
  | node i e m left right ihl ihr => simp [marked, entries, ihl, ihr]

/-- A search gives hits, each of them once. -/
theorem find_sublist (before : τ → Bool) (hit behind : α → Bool) (t : IntervalNodes α τ) :
    (t.find before hit behind).Sublist (t.entries.filter hit) := by
  induction t with
  | leaf => exact List.Sublist.refl _
  | node i e m left right ihl ihr =>
      rw [find, entries, List.filter_append, List.filter_cons]
      split
      · exact List.nil_sublist _
      · rw [List.append_assoc]
        apply ihl.append
        have hright : (if behind e then [] else right.find before hit behind).Sublist
            (right.entries.filter hit) := by
          split
          · exact List.nil_sublist _
          · exact ihr
        cases hit e with
        | true => exact hright.cons_cons e
        | false => exact hright

section

variable [LinearOrder τ] {less : α → α → Bool} {ending : α → τ}

/-- No end is above the one of its subtree, and nothing on the right is less. -/
inductive Ordered (less : α → α → Bool) (ending : α → τ) : IntervalNodes α τ → Prop
  | leaf : Ordered less ending leaf
  | node {i : ℕ} {e : α} {m : τ} {left right : IntervalNodes α τ} (hleft : Ordered less ending left)
      (hright : Ordered less ending right)
      (hends : ∀ a ∈ (node i e m left right).entries, ending a ≤ m)
      (hstarts : ∀ a ∈ right.entries, less a e = false) : Ordered less ending (node i e m left right)

theorem mem_entries_insert {index : ℕ} {entry a : α} {t : IntervalNodes α τ} :
    a ∈ (t.insert less ending index entry).entries ↔ a = entry ∨ a ∈ t.entries := by
  induction t with
  | leaf => simp [insert, entries]
  | node i e m left right ihl ihr =>
      rw [insert]
      split
      · simp only [entries, List.mem_append, List.mem_cons, ihl]
        grind
      · simp only [entries, List.mem_append, List.mem_cons, ihr]
        grind

theorem mem_indices_insert {index j : ℕ} {entry : α} {t : IntervalNodes α τ} :
    j ∈ (t.insert less ending index entry).indices ↔ j = index ∨ j ∈ t.indices := by
  induction t with
  | leaf => simp [insert, indices]
  | node i e m left right ihl ihr =>
      rw [insert]
      split
      · simp only [indices, List.mem_append, List.mem_cons, ihl]
        grind
      · simp only [indices, List.mem_append, List.mem_cons, ihr]
        grind

theorem nodup_indices_insert {index : ℕ} {entry : α} {t : IntervalNodes α τ}
    (hnodup : t.indices.Nodup) (hfresh : index ∉ t.indices) :
    (t.insert less ending index entry).indices.Nodup := by
  induction t with
  | leaf => simp [insert, indices]
  | node i e m left right ihl ihr =>
      simp only [indices, List.mem_cons, List.mem_append, not_or] at hfresh
      simp only [indices, List.nodup_cons, List.nodup_append, List.mem_append, not_or] at hnodup
      obtain ⟨⟨hil, hir⟩, hl, hr, hdisjoint⟩ := hnodup
      rw [insert]
      split
      · simp only [indices, List.nodup_cons, List.nodup_append, List.mem_append, not_or,
          mem_indices_insert]
        refine ⟨⟨⟨Ne.symm hfresh.1, hil⟩, hir⟩, ihl hl hfresh.2.1, hr, ?_⟩
        rintro a (rfl | ha) b hb
        · exact fun heq => hfresh.2.2 (heq ▸ hb)
        · exact hdisjoint a ha b hb
      · simp only [indices, List.nodup_cons, List.nodup_append, List.mem_append, not_or,
          mem_indices_insert]
        refine ⟨⟨hil, Ne.symm hfresh.1, hir⟩, hl, ihr hr hfresh.2.2, ?_⟩
        rintro a ha b (rfl | hb)
        · exact fun heq => hfresh.2.1 (heq ▸ ha)
        · exact hdisjoint a ha b hb

theorem Ordered.insert {t : IntervalNodes α τ} (h : Ordered less ending t) (index : ℕ)
    (entry : α) : Ordered less ending (t.insert less ending index entry) := by
  induction h with
  | leaf =>
      refine Ordered.node Ordered.leaf Ordered.leaf ?_ ?_
      · simp [entries]
      · simp [entries]
  | @node i e m left right hleft hright hends hstarts ihl ihr =>
      have hle : ∀ a ∈ (IntervalNodes.node i e m left right).entries,
          ending a ≤ max m (ending entry) := fun a ha => (hends a ha).trans (le_max_left _ _)
      rw [IntervalNodes.insert]
      split
      · refine Ordered.node ihl hright ?_ hstarts
        intro a ha
        simp only [entries, List.mem_append, List.mem_cons, mem_entries_insert] at ha hle
        rcases ha with (rfl | ha) | ha
        · exact le_max_right _ _
        · exact hle a (Or.inl ha)
        · exact hle a (Or.inr ha)
      · next hnot =>
          refine Ordered.node hleft ihr ?_ ?_
          · intro a ha
            simp only [entries, List.mem_append, List.mem_cons, mem_entries_insert] at ha hle
            rcases ha with ha | ha | rfl | ha
            · exact hle a (Or.inl ha)
            · exact hle a (Or.inr (Or.inl ha))
            · exact le_max_right _ _
            · exact hle a (Or.inr (Or.inr ha))
          · intro a ha
            rcases mem_entries_insert.mp ha with rfl | ha
            · simpa using hnot
            · exact hstarts a ha

/-- Where `less` is the strict part of a total preorder, the entries stay in its order. -/
theorem pairwise_entries_insert (hasymm : ∀ a b, less a b = true → less b a = false)
    (htrans : ∀ a b c, less b a = false → less c b = false → less c a = false)
    {t : IntervalNodes α τ} (h : t.entries.Pairwise fun a b => less b a = false) (index : ℕ)
    (entry : α) :
    (t.insert less ending index entry).entries.Pairwise fun a b => less b a = false := by
  induction t with
  | leaf => simp [insert, entries]
  | node i e m left right ihl ihr =>
      rw [entries, List.pairwise_append, List.pairwise_cons] at h
      obtain ⟨hl, ⟨hright, hr⟩, hcross⟩ := h
      have hleft : ∀ a ∈ left.entries, less e a = false := fun a ha =>
        hcross a ha e (List.mem_cons_self ..)
      rw [insert]
      split
      · next hless =>
          -- the entry is below that of the node, and so below everything on the right
          rw [entries, List.pairwise_append, List.pairwise_cons]
          refine ⟨ihl hl, ⟨hright, hr⟩, fun a ha b hb => ?_⟩
          rcases mem_entries_insert.mp ha with rfl | ha
          · rcases List.mem_cons.mp hb with rfl | hb
            · exact hasymm a b hless
            · exact htrans a e b (hasymm a e hless) (hright b hb)
          · exact hcross a ha b hb
      · next hless =>
          have hge : less entry e = false := by simpa using hless
          rw [entries, List.pairwise_append, List.pairwise_cons]
          refine ⟨hl, ⟨fun b hb => ?_, ihr hr⟩, fun a ha b hb => ?_⟩
          · rcases mem_entries_insert.mp hb with rfl | hb
            · exact hge
            · exact hright b hb
          · rcases List.mem_cons.mp hb with rfl | hb
            · exact hleft a ha
            · rcases mem_entries_insert.mp hb with rfl | hb
              · exact htrans a e b (hleft a ha) hge
              · exact hcross a ha b (List.mem_cons_of_mem _ hb)

/-- A search finds every entry that the test is true of, if an entry whose end is at most
one that is before the search is no hit, nor one that is not less than an entry behind. -/
theorem mem_find {before : τ → Bool} {hit behind : α → Bool} {t : IntervalNodes α τ}
    (h : Ordered less ending t) {a : α} (ha : a ∈ t.entries) (hhit : hit a = true)
    (hbefore : ∀ m, before m = true → ¬ ending a ≤ m)
    (hbehind : ∀ e, behind e = true → less a e = true) : a ∈ t.find before hit behind := by
  induction h with
  | leaf => exact absurd ha List.not_mem_nil
  | @node i e m left right hleft hright hends hstarts ihl ihr =>
      have hnot : ¬ before m = true := fun hm => hbefore m hm (hends a ha)
      rw [find, if_neg hnot]
      simp only [List.mem_append]
      simp only [entries, List.mem_append, List.mem_cons] at ha
      rcases ha with ha | rfl | ha
      · exact Or.inl (Or.inl (ihl ha))
      · exact Or.inl (Or.inr (by simp [hhit]))
      · right
        have hin : ¬ behind e = true := by
          intro hbehinde
          have hless := hbehind e hbehinde
          rw [hstarts a ha] at hless
          contradiction
        rw [if_neg hin]
        exact ihr ha

/-- No end is above the one at its node. -/
theorem Ordered.ending_le_of_mem_marked {t : IntervalNodes α τ} (h : Ordered less ending t)
    {n : α × τ} (hn : n ∈ t.marked) : ending n.1 ≤ n.2 := by
  induction h with
  | leaf => exact absurd hn List.not_mem_nil
  | node hleft hright hends hstarts ihl ihr =>
      rcases List.mem_append.mp hn with hn | hn
      · exact ihl hn
      · rcases List.mem_cons.mp hn with rfl | hn
        · exact hends _ (by simp [entries])
        · exact ihr hn

/-! ## When nothing is left out -/

/-- The greatest end of a subtree is the end of one of its entries. -/
inductive Attained (ending : α → τ) : IntervalNodes α τ → Prop
  | leaf : Attained ending leaf
  | node {i : ℕ} {e : α} {m : τ} {left right : IntervalNodes α τ} (hleft : Attained ending left)
      (hright : Attained ending right)
      (hend : ∃ a ∈ (node i e m left right).entries, ending a = m) :
      Attained ending (node i e m left right)

theorem length_indices_insert (less : α → α → Bool) (ending : α → τ) (index : ℕ) (entry : α)
    (t : IntervalNodes α τ) :
    (t.insert less ending index entry).indices.length = t.indices.length + 1 := by
  induction t with
  | leaf => rfl
  | node i e m left right ihl ihr =>
      rw [insert]
      split
      · simp only [indices, List.length_cons, List.length_append, ihl]
        omega
      · simp only [indices, List.length_cons, List.length_append, ihr]
        omega

theorem Attained.insert {t : IntervalNodes α τ} (h : Attained ending t) (less : α → α → Bool)
    (index : ℕ) (entry : α) : Attained ending (t.insert less ending index entry) := by
  induction h with
  | leaf => exact Attained.node Attained.leaf Attained.leaf ⟨entry, by simp [entries], rfl⟩
  | @node i e m left right hleft hright hend ihl ihr =>
      -- the greater of two ends is one of them
      have hmax : ∃ a, (a = entry ∨ a ∈ (IntervalNodes.node i e m left right).entries) ∧
          ending a = max m (ending entry) := by
        obtain ⟨a, ha, rfl⟩ := hend
        rcases max_choice (ending a) (ending entry) with hmax | hmax
        · exact ⟨a, Or.inr ha, hmax.symm⟩
        · exact ⟨entry, Or.inl rfl, hmax.symm⟩
      obtain ⟨a, ha, hending⟩ := hmax
      have hmem : a ∈ ((IntervalNodes.node i e m left right).insert less ending index entry).entries :=
        mem_entries_insert.mpr ha
      rw [IntervalNodes.insert] at hmem ⊢
      split
      · next hless =>
          rw [if_pos hless] at hmem
          exact Attained.node ihl hright ⟨a, hmem, hending⟩
      · next hless =>
          rw [if_neg hless] at hmem
          exact Attained.node hleft ihr ⟨a, hmem, hending⟩

omit [LinearOrder τ] in
theorem Attained.exists_of_mem_marked {t : IntervalNodes α τ} (h : Attained ending t) {n : α × τ}
    (hn : n ∈ t.marked) : ∃ a ∈ t.entries, ending a = n.2 := by
  induction h with
  | leaf => exact absurd hn List.not_mem_nil
  | @node i e m left right hleft hright hend ihl ihr =>
      simp only [marked, List.mem_append, List.mem_cons] at hn
      simp only [entries, List.mem_append, List.mem_cons]
      rcases hn with hn | rfl | hn
      · obtain ⟨a, ha, hending⟩ := ihl hn
        exact ⟨a, Or.inl ha, hending⟩
      · simpa [entries] using hend
      · obtain ⟨a, ha, hending⟩ := ihr hn
        exact ⟨a, Or.inr (Or.inr ha), hending⟩

/-- A part of a list that lies between two others is the whole of it if and only if this holds on
both sides. -/
theorem append_eq_iff_of_sublist {l₁ l₂ r₁ r₂ middle : List α} (hl : l₁.Sublist l₂)
    (hr : r₁.Sublist r₂) : l₁ ++ middle ++ r₁ = l₂ ++ middle ++ r₂ ↔ l₁ = l₂ ∧ r₁ = r₂ := by
  constructor
  · intro heq
    have hlength := congrArg List.length heq
    simp only [List.length_append] at hlength
    have hle := hl.length_le
    have hle' := hr.length_le
    exact ⟨hl.eq_of_length (by omega), hr.eq_of_length (by omega)⟩
  · rintro ⟨rfl, rfl⟩
    rfl

/-- A search finds all hits if and only if it comes to every node whose entry is one. -/
theorem find_eq_filter_iff {before : τ → Bool} {hit behind : α → Bool} {t : IntervalNodes α τ}
    (h : Ordered less ending t) (hattained : Attained ending t)
    (hmono : ∀ m m', m ≤ m' → before m' = true → before m = true)
    (hbehind : ∀ a e, hit a = true → behind e = true → less a e = true) :
    t.find before hit behind = t.entries.filter hit ↔
      ∀ n ∈ t.marked, hit n.1 = true → before n.2 = false := by
  induction h with
  | leaf => simp [find, entries, marked]
  | @node i e m left right hleft hright hends hstarts ihl ihr =>
      cases hattained with
      | node hattl hattr hend =>
          have hall := Attained.node (i := i) (e := e) hattl hattr hend
          rw [find]
          cases hm : before m with
          | true =>
              -- everything is left out, which is right if there is no hit
              rw [if_pos rfl, eq_comm, List.filter_eq_nil_iff, ← map_fst_marked,
                List.forall_mem_map]
              refine forall₂_congr fun n hn => ?_
              obtain ⟨a, ha, hending⟩ := hall.exists_of_mem_marked hn
              have hbefore : before n.2 = true := hmono _ _ (hending ▸ hends a ha) hm
              simp [hbefore]
          | false =>
              have hsingle : (IntervalNodes.node i e m left right).entries.filter hit =
                  left.entries.filter hit ++ (if hit e then [e] else []) ++
                    right.entries.filter hit := by
                rw [entries, List.filter_append, List.filter_cons]
                cases hit e <;> simp
              have hfindr : (if behind e then [] else right.find before hit behind) =
                    right.entries.filter hit ↔
                  right.find before hit behind = right.entries.filter hit := by
                split
                · next hbehinde =>
                    -- what is behind an entry that is behind the search is no hit
                    have hnone : right.entries.filter hit = [] := by
                      rw [List.filter_eq_nil_iff]
                      intro a ha hhit
                      have hless := hbehind a e hhit hbehinde
                      rw [hstarts a ha] at hless
                      contradiction
                    have hsub := find_sublist before hit behind right
                    rw [hnone] at hsub ⊢
                    exact iff_of_true rfl (List.sublist_nil.mp hsub)
                · rfl
              have hsub : (if behind e then [] else right.find before hit behind).Sublist
                  (right.entries.filter hit) := by
                split
                · exact List.nil_sublist _
                · exact find_sublist before hit behind right
              rw [if_neg Bool.false_ne_true, hsingle,
                append_eq_iff_of_sublist (find_sublist before hit behind left) hsub, hfindr,
                ihl hattl, ihr hattr, marked, List.forall_mem_append, List.forall_mem_cons]
              exact and_congr_right fun _ => (and_iff_right fun _ => hm).symm

end

end IntervalNodes
end Crabstash

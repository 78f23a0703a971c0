import Mathlib.Data.List.Lex
import Mathlib.Order.Cover
import Mathlib.Order.Lattice
import Mathlib.Order.Monotone.Basic

/-!
# Lexicographic comparison of byte strings

Byte strings are compared lexicographically, the shorter of two strings first
when it is a prefix of the other.  Mathlib gives the order on lists over a
linearly ordered alphabet; this file adds the order of the alphabet, `UInt8`,
and the three facts a comparison loop needs: a common prefix can be dropped
(`cmp_append_left`), the first differing letter decides (`cmp_of_getElem_ne`),
and when there is none the lengths decide (`cmp_of_take_eq`).

The strings with a given prefix are an interval.  It begins at the prefix and ends
before the next string of at most its length: greatest letters at the end do not count,
and the last of the other letters is raised (`prefix_iff_le_and_lt`); if there is no
other letter there is no end (`prefix_iff_le`).
-/

instance UInt8.instLinearOrder : LinearOrder UInt8 where
  le_refl := UInt8.le_refl
  le_trans _ _ _ := UInt8.le_trans
  lt_iff_le_not_ge a b := by simp only [UInt8.lt_iff_toNat_lt, UInt8.le_iff_toNat_le]; omega
  le_antisymm _ _ := UInt8.le_antisymm
  le_total := UInt8.le_total
  toDecidableLE := inferInstance
  toDecidableEq := inferInstance
  toDecidableLT := inferInstance

namespace Crabstash.LexOrder

variable {α : Type*} [LinearOrder α]

/-- Core has an instance of its own for `<` on lists; the one of the linear
order is preferred from here on, so that the order lemmas apply as they are. -/
instance instLTList : LT (List α) := Preorder.toLT

instance instDecidableLTList : DecidableLT (List α) := LinearOrder.toDecidableLT

theorem cmp_cons_self (c : α) (x y : List α) : cmp (c :: x) (c :: y) = cmp x y := by
  have hmono : StrictMono fun l : List α => c :: l := by
    intro x y hlt
    exact List.cons_lt_cons_iff.mpr (Or.inr ⟨rfl, hlt⟩)
  exact hmono.cmp_map_eq x y

/-- A common prefix does not matter. -/
theorem cmp_append_left (p x y : List α) : cmp (p ++ x) (p ++ y) = cmp x y := by
  induction p with
  | nil => rfl
  | cons c p ih => rw [List.cons_append, List.cons_append, cmp_cons_self, ih]

theorem cmp_cons_of_ne {c d : α} (hne : c ≠ d) (x y : List α) :
    cmp (c :: x) (d :: y) = cmp c d := by
  rcases lt_or_gt_of_ne hne with hlt | hgt
  · rw [hlt.cmp_eq_lt, cmp_eq_lt_iff]
    exact List.cons_lt_cons_iff.mpr (Or.inl hlt)
  · rw [hgt.cmp_eq_gt, cmp_eq_gt_iff]
    exact List.cons_lt_cons_iff.mpr (Or.inl hgt)

/-- The first differing letter decides. -/
theorem cmp_of_getElem_ne {a b : List α} {n : ℕ} (htake : a.take n = b.take n)
    (ha : n < a.length) (hb : n < b.length) (hne : a[n] ≠ b[n]) :
    cmp a b = cmp a[n] b[n] := by
  have hsplit : cmp (a.take n ++ a.drop n) (b.take n ++ b.drop n) = cmp a[n] b[n] := by
    rw [htake, cmp_append_left, List.drop_eq_getElem_cons ha, List.drop_eq_getElem_cons hb]
    exact cmp_cons_of_ne hne _ _
  rwa [List.take_append_drop, List.take_append_drop] at hsplit

/-- When one string is a prefix of the other, the lengths decide. -/
theorem cmp_of_take_eq {a b : List α}
    (htake : a.take (min a.length b.length) = b.take (min a.length b.length)) :
    cmp a b = cmp a.length b.length := by
  have hcons : ∀ (c : α) (x : List α), cmp [] (c :: x) = .lt := fun c x =>
    LT.lt.cmp_eq_lt (List.nil_lt_cons c x)
  have hcons' : ∀ (c : α) (x : List α), cmp (c :: x) [] = .gt := fun c x =>
    LT.lt.cmp_eq_gt (List.nil_lt_cons c x)
  induction a generalizing b with
  | nil =>
      cases b with
      | nil => rw [cmp_self_eq_eq, List.length_nil, cmp_self_eq_eq]
      | cons d y => rw [hcons, eq_comm, cmp_eq_lt_iff]; simp
  | cons c x ih =>
      cases b with
      | nil => rw [hcons', eq_comm, cmp_eq_gt_iff]; simp
      | cons d y =>
          simp only [List.length_cons, Nat.add_min_add_right, List.take_succ_cons,
            List.cons.injEq] at htake
          obtain ⟨rfl, hrest⟩ := htake
          have hsucc : StrictMono Nat.succ := fun _ _ => Nat.succ_lt_succ
          rw [cmp_cons_self, ih hrest, List.length_cons, List.length_cons]
          exact (hsucc.cmp_map_eq x.length y.length).symm

/-! ## Prefixes -/

theorem cons_le_cons_iff {c d : α} {x y : List α} : c :: x ≤ d :: y ↔ c < d ∨ c = d ∧ x ≤ y := by
  rw [le_iff_lt_or_eq, List.cons_lt_cons_iff, List.cons.injEq, le_iff_lt_or_eq]
  grind

theorem le_of_isPrefix {p k : List α} (h : p <+: k) : p ≤ k := by
  obtain ⟨rest, rfl⟩ := h
  induction p with
  | nil => exact not_lt.mp (List.not_lt_nil _)
  | cons c p ih => exact cons_le_cons_iff.mpr (Or.inr ⟨rfl, ih⟩)

/-- Of a string of greatest letters only its continuations are not below. -/
theorem prefix_iff_le {p k : List α} (hmax : ∀ c ∈ p, IsMax c) : p <+: k ↔ p ≤ k := by
  refine ⟨le_of_isPrefix, fun hle => ?_⟩
  induction p generalizing k with
  | nil => exact List.nil_prefix
  | cons c p ih =>
      rw [List.forall_mem_cons] at hmax
      cases k with
      | nil => exact absurd hle (not_le.mpr (List.nil_lt_cons c p))
      | cons d k =>
          rcases cons_le_cons_iff.mp hle with hlt | ⟨rfl, hrest⟩
          · exact absurd hlt hmax.1.not_lt
          · exact List.cons_prefix_cons.mpr ⟨rfl, ih hmax.2 hrest⟩

/-- The letter before the greatest ones at the end is raised to the next. -/
theorem prefix_iff_le_and_lt {p tops k : List α} {c d : α} (hcovers : c ⋖ d)
    (hmax : ∀ a ∈ tops, IsMax a) :
    p ++ c :: tops <+: k ↔ p ++ c :: tops ≤ k ∧ k < p ++ [d] := by
  induction p generalizing k with
  | nil =>
      cases k with
      | nil => simp
      | cons a k =>
          rw [List.nil_append, List.nil_append, List.cons_prefix_cons, cons_le_cons_iff,
            List.cons_lt_cons_iff, prefix_iff_le hmax]
          constructor
          · rintro ⟨rfl, hle⟩
            exact ⟨Or.inr ⟨rfl, hle⟩, Or.inl hcovers.lt⟩
          · rintro ⟨hfirst, hlt | ⟨-, hnil⟩⟩
            · -- nothing lies between the letter and the next
              have heq : c = a := by
                refine le_antisymm ?_ (hcovers.le_of_lt hlt)
                rcases hfirst with hlt' | ⟨heq, -⟩
                · exact hlt'.le
                · exact heq.le
              exact ⟨heq, (hfirst.resolve_left heq.not_lt).2⟩
            · exact absurd hnil (List.not_lt_nil _)
  | cons e p ih =>
      cases k with
      | nil => simp
      | cons a k =>
          rw [List.cons_append, List.cons_append, List.cons_prefix_cons, cons_le_cons_iff,
            List.cons_lt_cons_iff, ih]
          constructor
          · rintro ⟨rfl, hle, hlt⟩
            exact ⟨Or.inr ⟨rfl, hle⟩, Or.inr ⟨rfl, hlt⟩⟩
          -- the comparisons go opposite ways at the first letter unless it is the same
          · rintro ⟨hlt | ⟨rfl, hle⟩, hlt' | ⟨heq, hrest⟩⟩
            · exact absurd hlt' hlt.not_gt
            · exact absurd heq hlt.ne'
            · exact absurd hlt' (lt_irrefl _)
            · exact ⟨rfl, hle, hrest⟩

end Crabstash.LexOrder

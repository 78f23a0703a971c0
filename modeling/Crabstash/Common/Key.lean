import Crabstash.Common.Simd
import Mathlib.Data.Prod.Lex
import Mathlib.Order.OrderDual

/-!
# Versioned keys

`Key` of `key.rs`: the key data together with the timestamp of one version.
Versions of one key stand next to each other, the newest first, because
`Key::cmp` compares the data ascending and then the timestamp *descending*.

`Key.cmp` is the source's comparison.  The `LinearOrder` instance is the
lexicographic order it stands for, and `Key.cmp_compares` says that the two
agree; `Key.lt_iff` is how the order is used everywhere else.

The bounds of a range of key data stand at the end.
-/

namespace Crabstash

/-- One version of a key. -/
@[ext]
structure Key where
  data : Bytes
  timestamp : ℕ
  deriving DecidableEq, Repr

namespace Key

/-- `<Key as Ord>::cmp`. -/
def cmp (a b : Key) : Ordering :=
  match Simd.compareBytes a.data b.data with
  | .eq => compare b.timestamp a.timestamp
  | ord => ord

/-- A key read as a pair: data ascending, timestamp descending. -/
def toLexPair (key : Key) : Bytes ×ₗ ℕᵒᵈ := toLex (key.data, OrderDual.toDual key.timestamp)

theorem toLexPair_injective : Function.Injective toLexPair := by
  intro a b h
  have hpair : (a.data, OrderDual.toDual a.timestamp) = (b.data, OrderDual.toDual b.timestamp) :=
    toLex.injective h
  exact Key.ext (congrArg Prod.fst hpair) (OrderDual.toDual.injective (congrArg Prod.snd hpair))

instance instLinearOrder : LinearOrder Key := LinearOrder.lift' toLexPair toLexPair_injective

theorem lt_iff {a b : Key} :
    a < b ↔ a.data < b.data ∨ a.data = b.data ∧ b.timestamp < a.timestamp :=
  Prod.Lex.toLex_lt_toLex

theorem le_iff {a b : Key} :
    a ≤ b ↔ a.data < b.data ∨ a.data = b.data ∧ b.timestamp ≤ a.timestamp :=
  Prod.Lex.toLex_le_toLex

/-- The source's comparison is the comparison of the linear order. -/
theorem cmp_compares (a b : Key) : (cmp a b).Compares a b := by
  unfold cmp
  rw [Simd.compareBytes_eq]
  rcases lt_trichotomy a.data b.data with hlt | heq | hgt
  · rw [hlt.cmp_eq_lt]
    exact lt_iff.mpr (Or.inl hlt)
  · rw [heq.cmp_eq_eq]
    rcases lt_trichotomy b.timestamp a.timestamp with hts | hts | hts
    · rw [compare_lt_iff_lt.mpr hts]
      exact lt_iff.mpr (Or.inr ⟨heq, hts⟩)
    · rw [compare_eq_iff_eq.mpr hts]
      exact Key.ext heq hts.symm
    · rw [compare_gt_iff_gt.mpr hts]
      exact lt_iff.mpr (Or.inr ⟨heq.symm, hts⟩)
  · rw [hgt.cmp_eq_gt]
    exact lt_iff.mpr (Or.inl hgt)

theorem cmp_lt_iff {a b : Key} : cmp a b = .lt ↔ a < b := (cmp_compares a b).eq_lt

theorem cmp_eq_iff {a b : Key} : cmp a b = .eq ↔ a = b := (cmp_compares a b).eq_eq

theorem cmp_gt_iff {a b : Key} : cmp a b = .gt ↔ b < a := (cmp_compares a b).eq_gt

instance isStrictTotalOrder_cmp : IsStrictTotalOrder Key fun a b => cmp a b = .lt where
  trichotomous a b hab hba := by
    rw [cmp_lt_iff] at hab hba
    exact le_antisymm (not_lt.mp hba) (not_lt.mp hab)
  irrefl a ha := lt_irrefl a (cmp_lt_iff.mp ha)
  trans a b c hab hbc :=
    cmp_lt_iff.mpr ((cmp_lt_iff.mp hab).trans (cmp_lt_iff.mp hbc))

/-- **The order of the keys.**  For byte strings of any lengths the chunked comparisons are the
lexicographic order and equality; so `Key::cmp` orders strictly and totally, by the data and then
by the timestamps, the greater one first, and gives `Equal` for equal keys only. -/
theorem plainOrder :
    (∀ a b : Bytes, (Simd.compareBytes a b = .lt ↔ List.Lex (· < ·) a b) ∧
      (Simd.compareBytes a b = .eq ↔ a = b) ∧
      (Simd.compareBytes a b = .gt ↔ List.Lex (· < ·) b a) ∧
      (Simd.bytesEqual a b = true ↔ a = b)) ∧
    (∀ a b : Key, (a.cmp b = .lt ↔
        List.Lex (· < ·) a.data b.data ∨ a.data = b.data ∧ b.timestamp < a.timestamp) ∧
      (a.cmp b = .eq ↔ a = b) ∧ (a.cmp b = .gt ↔ b.cmp a = .lt)) ∧
    IsStrictTotalOrder Key fun a b => a.cmp b = .lt := by
  refine ⟨fun a b => ?_, fun a b => ⟨?_, cmp_eq_iff, ?_⟩, isStrictTotalOrder_cmp⟩
  · rw [Simd.compareBytes_eq]
    exact ⟨cmp_eq_lt_iff a b, cmp_eq_eq_iff a b, cmp_eq_gt_iff a b,
      Simd.bytesEqual_iff a b⟩
  · rw [cmp_lt_iff]
    exact lt_iff
  · rw [cmp_gt_iff, cmp_lt_iff]

theorem lt_of_data_lt {a b : Key} (h : a.data < b.data) : a < b := lt_iff.mpr (Or.inl h)

theorem data_le_of_le {a b : Key} (h : a ≤ b) : a.data ≤ b.data := by
  rcases le_iff.mp h with hlt | ⟨heq, _⟩
  · exact hlt.le
  · exact heq.le

end Key

/-- `Bound` of the standard library, over byte strings. -/
inductive Bound where
  | unbounded
  | included (key : Bytes)
  | excluded (key : Bytes)
  deriving DecidableEq, Repr

/-- Is the key between the bounds?  `key_in_range` of the lock table, and `key_in_ranges` for one
range. -/
def inRange (key : Bytes) (range : Bound × Bound) : Bool :=
  let afterStart := match range.1 with
    | .unbounded => true
    | .included start => decide (start ≤ key)
    | .excluded start => decide (start < key)
  let beforeEnd := match range.2 with
    | .unbounded => true
    | .included last => decide (key ≤ last)
    | .excluded last => decide (key < last)
  afterStart && beforeEnd

end Crabstash

import Mathlib.Order.WithBot
import Mathlib.Data.Prod.Lex

/-!
# Cuts of a linear order

A bound that includes a key, one that leaves it out and one that is missing are compared by the
place they cut the order at: `before` the key, `behind` it, or at one of the two ends.  The
cuts are in a linear order again, in which nothing lies between `before k` and `behind k`
(`lt_behind_iff`).  A range is then all between two cuts, and whether two ranges meet is a matter
of two comparisons, with no case split on the kinds of their bounds.
-/

namespace Crabstash

/-- A place between the keys, or at one of the two ends. -/
abbrev Cut (α : Type*) := WithBot (WithTop (α ×ₗ Bool))

namespace Cut

variable {α : Type*}

/-- The two cuts at a key, the one behind it with the flag set. -/
def atKey (a : α) (flag : Bool) : Cut α := ((toLex (a, flag) : α ×ₗ Bool) : WithTop (α ×ₗ Bool))

/-- The cut in front of a key. -/
def before (a : α) : Cut α := atKey a false

/-- The cut behind a key. -/
def behind (a : α) : Cut α := atKey a true

/-- Every cut is at an end or at a key. -/
theorem eq_end_or_key (c : Cut α) : c = ⊥ ∨ c = ⊤ ∨ ∃ a, c = before a ∨ c = behind a := by
  cases c using WithBot.recBotCoe with
  | bot => exact Or.inl rfl
  | coe c =>
      cases c using WithTop.recTopCoe with
      | top => exact Or.inr (Or.inl rfl)
      | coe p =>
          refine Or.inr (Or.inr ⟨(ofLex p).1, ?_⟩)
          rcases p with ⟨a, flag⟩
          cases flag with
          | false => exact Or.inl rfl
          | true => exact Or.inr rfl

section Order

variable [LinearOrder α] {a b : α}

theorem atKey_lt_atKey {x y : Bool} : atKey a x < atKey b y ↔ a < b ∨ a = b ∧ x < y := by
  unfold atKey
  rw [WithBot.coe_lt_coe, WithTop.coe_lt_coe, Prod.Lex.toLex_lt_toLex]

@[simp] theorem before_lt_before : before a < before b ↔ a < b := by simp [before, atKey_lt_atKey]

@[simp] theorem behind_lt_behind : behind a < behind b ↔ a < b := by simp [behind, atKey_lt_atKey]

@[simp] theorem behind_lt_before : behind a < before b ↔ a < b := by
  simp [before, behind, atKey_lt_atKey]

@[simp] theorem before_lt_behind : before a < behind b ↔ a ≤ b := by
  simp [before, behind, atKey_lt_atKey, le_iff_lt_or_eq]

@[simp] theorem bot_lt_before : ⊥ < before a := WithBot.bot_lt_coe _

@[simp] theorem bot_lt_behind : ⊥ < behind a := WithBot.bot_lt_coe _

@[simp] theorem before_lt_top : before a < ⊤ := WithBot.coe_lt_coe.mpr (WithTop.coe_lt_top _)

@[simp] theorem behind_lt_top : behind a < ⊤ := WithBot.coe_lt_coe.mpr (WithTop.coe_lt_top _)

theorem before_strictMono : StrictMono (before : α → Cut α) := fun _ _ => before_lt_before.mpr

theorem behind_strictMono : StrictMono (behind : α → Cut α) := fun _ _ => behind_lt_behind.mpr

/-- Only the key itself lies between the two cuts at it. -/
theorem lt_behind_iff {c : Cut α} : c < behind a ↔ c ≤ before a := by
  rcases eq_end_or_key c with rfl | rfl | ⟨b, rfl | rfl⟩
  · simp
  · simp [← not_lt]
  · rw [before_lt_behind, before_strictMono.le_iff_le]
  · rw [behind_lt_behind, ← not_lt, before_lt_behind, not_le]

end Order

end Cut
end Crabstash

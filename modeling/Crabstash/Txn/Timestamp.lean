import Mathlib.Algebra.Order.Group.Nat
import Mathlib.Data.List.Chain
import Mathlib.Data.Nat.Bitwise
import Mathlib.Tactic.NormNum

/-!
# Timestamps

`TimestampOracle` of `timestamp.rs`.  The clock reading, in milliseconds, is an
input.  Numbers are machine words: a shift loses the bits above the word, and
the logical counter wraps.

A call that finds the clock advanced sets the logical counter to 0 and returns 0 as the
logical part; the next call in the same tick takes the counter as it is and returns 0 again.
So after the first advance every reading has to be larger than the one before
(`increasing_after`).  Only a clock that stands at 0 from the beginning is counted through
properly, until the 18 bits of the logical part are used up (`increasing_at_zero`).
-/

namespace Crabstash

/-- The two atomics of the oracle. -/
structure TimestampOracle where
  logical : ℕ
  lastPhysical : ℕ
  deriving DecidableEq, Repr

namespace TimestampOracle

/-- `TimestampOracle::new`. -/
def new : TimestampOracle := { logical := 0, lastPhysical := 0 }

/-- `ms << 18` on a machine word. -/
def shift (ms : ℕ) : ℕ := (ms <<< 18) % 2 ^ 64

/-- `get_timestamp`, with what the clock shows. -/
def getTimestamp (o : TimestampOracle) (physical : ℕ) : ℕ × TimestampOracle :=
  if o.lastPhysical < physical then
    (shift physical, { logical := 0, lastPhysical := physical })
  else
    (shift o.lastPhysical ||| (o.logical &&& 0x3FFFF),
      { o with logical := (o.logical + 1) % 2 ^ 64 })

/-- The timestamps of consecutive calls, by what the clock reads at each. -/
def timestamps (o : TimestampOracle) : List ℕ → List ℕ
  | [] => []
  | physical :: rest =>
      (o.getTimestamp physical).1 :: (o.getTimestamp physical).2.timestamps rest

/-! ## One call -/

theorem shift_eq {ms : ℕ} (h : ms < 2 ^ 46) : shift ms = ms * 2 ^ 18 := by
  unfold shift
  rw [Nat.shiftLeft_eq]
  apply Nat.mod_eq_of_lt
  omega

theorem getTimestamp_of_lt {o : TimestampOracle} {physical : ℕ} (h : o.lastPhysical < physical) :
    o.getTimestamp physical = (shift physical, { logical := 0, lastPhysical := physical }) :=
  if_pos h

/-- Where the clock has not advanced, the logical counter is put behind the last reading. -/
theorem getTimestamp_of_le {o : TimestampOracle} {physical : ℕ} (hle : physical ≤ o.lastPhysical)
    (hlast : o.lastPhysical < 2 ^ 46) :
    o.getTimestamp physical = (o.lastPhysical * 2 ^ 18 + o.logical % 2 ^ 18,
      { o with logical := (o.logical + 1) % 2 ^ 64 }) := by
  have hlow : o.logical &&& 0x3FFFF = o.logical % 2 ^ 18 := Nat.and_two_pow_sub_one_eq_mod _ 18
  have hmod : o.logical % 2 ^ 18 < 2 ^ 18 := Nat.mod_lt _ (by norm_num)
  rw [getTimestamp, if_neg (not_lt.mpr hle), hlow, shift_eq hlast, ← Nat.shiftLeft_eq,
    ← Nat.shiftLeft_add_eq_or_of_lt hmod]

/-! ## Consecutive calls -/

/-- After an advance of the clock, timestamps increase only as long as it advances again at every
call. -/
theorem increasing_after {physical : ℕ} {readings : List ℕ} (hphysical : physical < 2 ^ 46)
    (hclock : ∀ ms ∈ readings, ms < 2 ^ 46) :
    (shift physical :: timestamps ⟨0, physical⟩ readings).IsChain (· < ·) ↔
      (physical :: readings).IsChain (· < ·) := by
  induction readings generalizing physical with
  | nil => simp [timestamps]
  | cons next rest ih =>
      rw [List.forall_mem_cons] at hclock
      rw [timestamps, List.isChain_cons_cons, List.isChain_cons_cons]
      by_cases hadvance : physical < next
      · have hlt : shift physical < shift next := by
          rw [shift_eq hphysical, shift_eq hclock.1]
          omega
        rw [getTimestamp_of_lt hadvance]
        exact and_congr (iff_of_true hlt hadvance) (ih hclock.1 hclock.2)
      · -- the counter still stands at 0, which the call before has returned
        have hsame : (getTimestamp ⟨0, physical⟩ next).1 = shift physical := by
          rw [getTimestamp_of_le (not_lt.mp hadvance) hphysical, shift_eq hphysical]
          simp
        rw [hsame]
        simp [hadvance]

/-- At a clock that stands at 0 the counter goes up, and the timestamps with it, until there are
`2 ^ 18` of them. -/
theorem increasing_at_zero {count : ℕ} {readings : List ℕ} (hpos : 0 < count)
    (hcount : count ≤ 2 ^ 18) (hclock : ∀ ms ∈ readings, ms < 2 ^ 46) :
    ((count - 1) :: timestamps ⟨count, 0⟩ readings).IsChain (· < ·) ↔
      count + (readings.takeWhile (· == 0)).length ≤ 2 ^ 18 ∧
        (readings.dropWhile (· == 0)).IsChain (· < ·) := by
  induction readings generalizing count with
  | nil => simpa [timestamps] using hcount
  | cons next rest ih =>
      rw [List.forall_mem_cons] at hclock
      rw [timestamps, List.isChain_cons_cons]
      cases next with
      | zero =>
          have hcall : getTimestamp ⟨count, 0⟩ 0 = (count % 2 ^ 18, ⟨count + 1, 0⟩) := by
            rw [getTimestamp_of_le (le_refl 0) (by norm_num)]
            simp only [zero_mul, zero_add, Prod.mk.injEq, mk.injEq, true_and, and_true]
            omega
          rw [hcall, List.takeWhile_cons_of_pos rfl, List.dropWhile_cons_of_pos rfl,
            List.length_cons]
          -- each call at 0 uses up one of the `2 ^ 18` values
          rcases hcount.lt_or_eq with hlt | rfl
          · rw [Nat.mod_eq_of_lt hlt]
            have hprevious : count - 1 < count := by omega
            have hrest := ih (show 0 < count + 1 from Nat.succ_pos count) hlt hclock.2
            rw [Nat.add_sub_cancel] at hrest
            rw [and_iff_right hprevious, hrest, Nat.add_right_comm, Nat.add_assoc]
          · -- the mask takes the counter back to 0
            constructor
            · rintro ⟨habsurd, -⟩
              simp at habsurd
            · rintro ⟨habsurd, -⟩
              omega
      | succ ms =>
          -- when the clock moves the timestamp passes all those of the tick at 0
          have hlt : count - 1 < shift (ms + 1) := by
            rw [shift_eq hclock.1]
            omega
          rw [getTimestamp_of_lt (Nat.succ_pos ms), List.takeWhile_cons_of_neg (by simp),
            List.dropWhile_cons_of_neg (by simp), increasing_after hclock.1 hclock.2]
          exact ⟨fun h => ⟨by simpa using hcount, h.2⟩, fun h => ⟨hlt, h.2⟩⟩

/-- The timestamps of consecutive calls increase strictly if and only if there are at most `2 ^ 18`
calls before the clock first reads more than 0, and from then on every reading is larger than the
one before. -/
theorem increasing_iff {readings : List ℕ} (hclock : ∀ ms ∈ readings, ms < 2 ^ 46) :
    (new.timestamps readings).Pairwise (· < ·) ↔
      (readings.takeWhile (· == 0)).length ≤ 2 ^ 18 ∧
        (readings.dropWhile (· == 0)).Pairwise (· < ·) := by
  rw [← List.isChain_iff_pairwise, ← List.isChain_iff_pairwise]
  cases readings with
  | nil => simp [timestamps]
  | cons first rest =>
      rw [List.forall_mem_cons] at hclock
      rw [timestamps]
      cases first with
      | zero =>
          have hcall : new.getTimestamp 0 = (0, ⟨1, 0⟩) := by decide
          have hrest := increasing_at_zero one_pos (by norm_num) hclock.2
          rw [hcall, List.takeWhile_cons_of_pos rfl, List.dropWhile_cons_of_pos rfl,
            List.length_cons, Nat.add_comm _ 1]
          exact hrest
      | succ ms =>
          rw [getTimestamp_of_lt (Nat.succ_pos ms), List.takeWhile_cons_of_neg (by simp),
            List.dropWhile_cons_of_neg (by simp), increasing_after hclock.1 hclock.2]
          simp

/-- Two calls while the clock stands at 0 and two advances, and the same with a second call in
the last millisecond. -/
theorem increasing_iff_advances :
    (new.timestamps [0, 0, 5, 1700000000000]).Pairwise (· < ·) ∧
      ¬ (new.timestamps [0, 0, 5, 1700000000000, 1700000000000]).Pairwise (· < ·) := by
  constructor
  · exact (increasing_iff (by decide)).mpr (by decide)
  · intro hincreasing
    exact absurd ((increasing_iff (by decide)).mp hincreasing) (by decide)

/-- Two calls in the same millisecond. -/
theorem not_increasing_same_tick :
    (∀ ms ∈ [1700000000000, 1700000000000], ms < 2 ^ 46) ∧
      ¬ (new.timestamps [1700000000000, 1700000000000]).Pairwise (· < ·) := by
  decide

end TimestampOracle
end Crabstash

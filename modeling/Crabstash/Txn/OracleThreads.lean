import Crabstash.Foundations.Run
import Crabstash.Txn.Timestamp

/-!
# Threads that draw timestamps

`get_timestamp` in the steps in which threads see it: the clock is read, then `last_physical` is
loaded, then either the two variables are stored one after the other, or the counter is fetched
and increased.  Steps of different calls come in any order, and the clock may read anything.

A call can be overtaken between its load and its stores.  It then puts `last_physical` back to its
own, older reading.  What is left is this: the physical part of a timestamp is a reading that the
clock has given by then, and not below the one of its own call (`Traced`).  So calls that are a
tick of the clock apart are in order (`ordered_across_ticks`).
-/

namespace Crabstash

open Run

/-- `TimestampOracle::physical`. -/
def TimestampOracle.physical (ts : ℕ) : ℕ := ts >>> 18

/-- Where a call of `get_timestamp` stands, with its local variables. -/
inductive OracleCall where
  | load (physical : ℕ)
  | storePhysical (physical : ℕ)
  | storeLogical (physical : ℕ)
  | fetchAdd (physical last : ℕ)
  | done (physical ts : ℕ)
  deriving DecidableEq

/-- The atomics of the oracle, and the calls under way. -/
structure OracleThreads where
  oracle : TimestampOracle
  calls : ℕ → Option OracleCall
  nextCallId : ℕ

/-- A call begins with a reading of the clock and goes on one access at a time. -/
inductive OracleStep where
  /-- A thread reads the clock. -/
  | readClock (physical : ℕ)
  | advance (callId : ℕ)

/-- What the clock reads at a step. -/
def OracleStep.reading : OracleStep → Option ℕ
  | .readClock physical => some physical
  | .advance _ => none

namespace OracleThreads

/-- A new oracle and no calls. -/
def init : OracleThreads :=
  { oracle := TimestampOracle.new, calls := fun _ => none, nextCallId := 0 }

/-- The next step of a call. -/
def proceed (oracle : TimestampOracle) : OracleCall → TimestampOracle × OracleCall
  | .load physical =>
      if oracle.lastPhysical < physical then (oracle, .storePhysical physical)
      else (oracle, .fetchAdd physical oracle.lastPhysical)
  | .storePhysical physical => ({ oracle with lastPhysical := physical }, .storeLogical physical)
  | .storeLogical physical =>
      ({ oracle with logical := 0 }, .done physical (TimestampOracle.shift physical))
  | .fetchAdd physical last =>
      ({ oracle with logical := (oracle.logical + 1) % 2 ^ 64 },
        .done physical (TimestampOracle.shift last ||| (oracle.logical &&& 0x3FFFF)))
  | .done physical ts => (oracle, .done physical ts)

/-- The oracle and the calls after a step. -/
def step (s : OracleThreads) : OracleStep → OracleThreads
  | .readClock physical =>
      { s with
        calls := Function.update s.calls s.nextCallId (some (.load physical))
        nextCallId := s.nextCallId + 1 }
  | .advance callId =>
      match s.calls callId with
      | none => s
      | some call =>
          { s with
            oracle := (proceed s.oracle call).1
            calls := Function.update s.calls callId (some (proceed s.oracle call).2) }

/-- The readings of a run, in order. -/
def readings (steps : List OracleStep) : List ℕ := steps.filterMap OracleStep.reading

/-! ## Calls that are not overtaken -/

theorem advance_of_calls {s : OracleThreads} {callId : ℕ} {call : OracleCall}
    (hcall : s.calls callId = some call) :
    s.step (.advance callId) =
      { s with
        oracle := (proceed s.oracle call).1
        calls := Function.update s.calls callId (some (proceed s.oracle call).2) } := by
  simp only [step, hcall]

/-- A call whose steps follow each other is `getTimestamp`. -/
theorem run_alone (s : OracleThreads) (physical : ℕ) :
    run step s [.readClock physical, .advance s.nextCallId, .advance s.nextCallId,
        .advance s.nextCallId] =
      { oracle := (s.oracle.getTimestamp physical).2
        calls := Function.update s.calls s.nextCallId
          (some (.done physical (s.oracle.getTimestamp physical).1))
        nextCallId := s.nextCallId + 1 } := by
  by_cases hadvance : s.oracle.lastPhysical < physical
  · rw [TimestampOracle.getTimestamp_of_lt hadvance]
    simp [step, proceed, hadvance]
  · simp [step, proceed, hadvance, TimestampOracle.getTimestamp]

/-! ## Where a timestamp comes from -/

theorem physical_shift {ms : ℕ} (h : ms < 2 ^ 46) :
    TimestampOracle.physical (TimestampOracle.shift ms) = ms := by
  rw [TimestampOracle.physical, TimestampOracle.shift_eq h, Nat.shiftRight_eq_div_pow,
    Nat.mul_div_cancel _ (by norm_num)]

/-- The counter stays below the physical part. -/
theorem physical_or {last : ℕ} (h : last < 2 ^ 46) (logical : ℕ) :
    TimestampOracle.physical (TimestampOracle.shift last ||| (logical &&& 0x3FFFF)) = last := by
  have hlow : logical &&& 0x3FFFF = logical % 2 ^ 18 := Nat.and_two_pow_sub_one_eq_mod _ 18
  have hmod : logical % 2 ^ 18 < 2 ^ 18 := Nat.mod_lt _ (by norm_num)
  rw [TimestampOracle.physical, hlow, TimestampOracle.shift_eq h, ← Nat.shiftLeft_eq,
    ← Nat.shiftLeft_add_eq_or_of_lt hmod, Nat.shiftLeft_eq, Nat.shiftRight_eq_div_pow]
  omega

theorem physical_mono {ts ts' : ℕ} (h : ts ≤ ts') :
    TimestampOracle.physical ts ≤ TimestampOracle.physical ts' := by
  rw [TimestampOracle.physical, TimestampOracle.physical, Nat.shiftRight_eq_div_pow,
    Nat.shiftRight_eq_div_pow]
  exact Nat.div_le_div_right h

/-- The physical part of the timestamp, once it is fixed, is a reading that the clock has given,
and not below that of the call. -/
def CallTraced (seen : List ℕ) : OracleCall → Prop
  | .load physical | .storePhysical physical | .storeLogical physical => physical ∈ seen
  | .fetchAdd physical last => physical ≤ last ∧ last ∈ seen
  | .done physical ts =>
      physical ≤ TimestampOracle.physical ts ∧ TimestampOracle.physical ts ∈ seen

/-- The physical parts in the oracle and in the calls are readings that have been seen. -/
structure Traced (seen : List ℕ) (s : OracleThreads) : Prop where
  lastPhysical : s.oracle.lastPhysical = 0 ∨ s.oracle.lastPhysical ∈ seen
  calls : ∀ callId call, s.calls callId = some call → CallTraced seen call

theorem CallTraced.mono {seen seen' : List ℕ} {call : OracleCall} (h : CallTraced seen call)
    (hsubset : seen ⊆ seen') : CallTraced seen' call := by
  cases call with
  | load physical => exact hsubset h
  | storePhysical physical => exact hsubset h
  | storeLogical physical => exact hsubset h
  | fetchAdd physical last => exact ⟨h.1, hsubset h.2⟩
  | done physical ts => exact ⟨h.1, hsubset h.2⟩

theorem traced_init : Traced [] init where
  lastPhysical := Or.inl rfl
  calls := by
    intro callId call hcall
    contradiction

/-- What a step of a call leaves in the two variables and in the call. -/
theorem CallTraced.proceed {seen : List ℕ} {oracle : TimestampOracle} {call : OracleCall}
    (h : CallTraced seen call) (hclock : ∀ ms ∈ seen, ms < 2 ^ 46)
    (hlast : oracle.lastPhysical = 0 ∨ oracle.lastPhysical ∈ seen) :
    ((OracleThreads.proceed oracle call).1.lastPhysical = 0 ∨
        (OracleThreads.proceed oracle call).1.lastPhysical ∈ seen) ∧
      CallTraced seen (OracleThreads.proceed oracle call).2 := by
  cases call with
  | load physical =>
      by_cases hadvance : oracle.lastPhysical < physical
      · simp only [OracleThreads.proceed, if_pos hadvance]
        exact ⟨hlast, h⟩
      · simp only [OracleThreads.proceed, if_neg hadvance]
        refine ⟨hlast, not_lt.mp hadvance, ?_⟩
        rcases hlast with hzero | hseen
        · -- then the clock reads 0 here
          have hown : physical = oracle.lastPhysical := by omega
          exact hown ▸ h
        · exact hseen
  | storePhysical physical => exact ⟨Or.inr h, h⟩
  | storeLogical physical =>
      refine ⟨hlast, ?_⟩
      show physical ≤ TimestampOracle.physical _ ∧ TimestampOracle.physical _ ∈ seen
      rw [physical_shift (hclock physical h)]
      exact ⟨le_rfl, h⟩
  | fetchAdd physical last =>
      obtain ⟨hle, hseen⟩ := h
      refine ⟨hlast, ?_⟩
      show physical ≤ TimestampOracle.physical _ ∧ TimestampOracle.physical _ ∈ seen
      rw [physical_or (hclock last hseen)]
      exact ⟨hle, hseen⟩
  | done physical ts => exact ⟨hlast, h⟩

theorem Traced.step {seen : List ℕ} {s : OracleThreads} (h : s.Traced seen)
    (hclock : ∀ ms ∈ seen, ms < 2 ^ 46) (action : OracleStep) :
    (s.step action).Traced (seen ++ action.reading.toList) := by
  cases action with
  | readClock physical =>
      have hsubset : seen ⊆ seen ++ [physical] := List.subset_append_left ..
      refine ⟨h.lastPhysical.imp_right fun hseen => hsubset hseen, ?_⟩
      intro callId call hcall
      -- a new call has read the clock and nothing else
      by_cases hown : callId = s.nextCallId
      · subst hown
        obtain rfl : OracleCall.load physical = call := by
          simpa [OracleThreads.step] using hcall
        exact List.mem_append_right _ (List.mem_singleton_self _)
      · have hold : s.calls callId = some call := by
          simpa [OracleThreads.step, hown] using hcall
        exact (h.calls callId call hold).mono hsubset
  | advance callId =>
      show (s.step (.advance callId)).Traced (seen ++ [])
      rw [List.append_nil]
      cases hown : s.calls callId with
      | none =>
          have hidle : s.step (.advance callId) = s := by
            simp only [OracleThreads.step, hown]
          rw [hidle]
          exact h
      | some own =>
          obtain ⟨hlast, hproceeded⟩ := (h.calls callId own hown).proceed hclock h.lastPhysical
          rw [advance_of_calls hown]
          refine ⟨hlast, ?_⟩
          intro other call hcall
          by_cases hsame : other = callId
          · subst hsame
            have hcall : some (OracleThreads.proceed s.oracle own).2 = some call := by
              simpa using hcall
            exact Option.some.inj hcall ▸ hproceeded
          · have hold : s.calls other = some call := by simpa [hsame] using hcall
            exact h.calls other call hold

theorem readings_cons (action : OracleStep) (rest : List OracleStep) :
    readings (action :: rest) = action.reading.toList ++ readings rest := by
  cases action <;> rfl

theorem Traced.run {seen : List ℕ} {s : OracleThreads} (h : s.Traced seen)
    {steps : List OracleStep} (hclock : ∀ ms ∈ seen ++ readings steps, ms < 2 ^ 46) :
    (Run.run OracleThreads.step s steps).Traced (seen ++ readings steps) := by
  induction steps generalizing seen s with
  | nil =>
      show s.Traced (seen ++ [])
      rw [List.append_nil]
      exact h
  | cons action rest ih =>
      rw [readings_cons, ← List.append_assoc] at hclock ⊢
      have hseen : ∀ ms ∈ seen, ms < 2 ^ 46 := fun ms hms =>
        hclock ms (List.mem_append_left _ (List.mem_append_left _ hms))
      exact ih (h.step hseen action) hclock

/-! ## The order of timestamps -/

theorem traced_run {steps : List OracleStep} (hclock : ∀ ms ∈ readings steps, ms < 2 ^ 46)
    {callId ms ts : ℕ} (hdone : (run step init steps).calls callId = some (.done ms ts)) :
    ms ≤ TimestampOracle.physical ts ∧ TimestampOracle.physical ts ∈ readings steps :=
  (traced_init.run hclock).calls callId _ hdone

/-- In any interleaving, a call is not behind those that have returned before its reading if the
clock has not gone back, and ahead of them if it has gone on. -/
theorem ordered_across_ticks (first second : List OracleStep)
    (hclock : ∀ ms ∈ readings (first ++ second), ms < 2 ^ 46) :
    (∀ callId ms ts, (run step init first).calls callId = some (.done ms ts) →
      ms ≤ TimestampOracle.physical ts ∧ TimestampOracle.physical ts ∈ readings first) ∧
    ∀ callId ms ts callId' ms' ts',
      (run step init first).calls callId = some (.done ms ts) →
      (run step init (first ++ second)).calls callId' = some (.done ms' ts') →
      ((∀ reading ∈ readings first, reading ≤ ms') →
        TimestampOracle.physical ts ≤ TimestampOracle.physical ts') ∧
      ((∀ reading ∈ readings first, reading < ms') → ts < ts') := by
  have hfirst : ∀ ms ∈ readings first, ms < 2 ^ 46 := by
    intro ms hms
    refine hclock ms ?_
    rw [readings, List.filterMap_append]
    exact List.mem_append_left _ hms
  refine ⟨fun callId ms ts hdone => traced_run hfirst hdone, ?_⟩
  intro callId ms ts callId' ms' ts' hdone hdone'
  obtain ⟨-, hseen⟩ := traced_run hfirst hdone
  obtain ⟨hown, -⟩ := traced_run hclock hdone'
  constructor
  · intro hnotBack
    exact (hnotBack _ hseen).trans hown
  · intro hgoneOn
    have hlt : TimestampOracle.physical ts < TimestampOracle.physical ts' :=
      (hgoneOn _ hseen).trans_le hown
    exact lt_of_not_ge fun hge => hlt.not_ge (physical_mono hge)

/-- A call that has loaded `last_physical` is overtaken by one with a later reading. -/
def overtaken : List OracleStep :=
  [.readClock 5, .advance 0, .readClock 7, .advance 1, .advance 1, .advance 1, .advance 0,
    .advance 0]

example : (run step init overtaken).oracle.lastPhysical = 5 := by decide

/-- The next tick comes after both. -/
def nextTick : List OracleStep := [.readClock 8, .advance 2, .advance 2, .advance 2]

theorem ordered_across_ticks_overtaken :
    (∀ callId ms ts, (run step init overtaken).calls callId = some (.done ms ts) →
      ms ≤ TimestampOracle.physical ts ∧ TimestampOracle.physical ts ∈ readings overtaken) ∧
    ∀ callId ms ts callId' ms' ts',
      (run step init overtaken).calls callId = some (.done ms ts) →
      (run step init (overtaken ++ nextTick)).calls callId' = some (.done ms' ts') →
      ((∀ reading ∈ readings overtaken, reading ≤ ms') →
        TimestampOracle.physical ts ≤ TimestampOracle.physical ts') ∧
      ((∀ reading ∈ readings overtaken, reading < ms') → ts < ts') :=
  ordered_across_ticks overtaken nextTick (by decide)

end OracleThreads
end Crabstash

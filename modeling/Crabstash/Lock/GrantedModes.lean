import Crabstash.Lock.EntryCalls

/-!
# What a granted lock gives

`try_acquire` takes every mode that the held one cannot be upgraded to for one that is held
already.  The modes are only partially ordered: from S there is no upgrade to IX, from IX
none to S and from SIX none to X, and in none of these pairs does the held mode keep out all
that the requested one would.  There the caller is told that it has the lock and the entry
still has the old mode, where `upgrade` answers `InvalidUpgrade`.

These three pairs are all.  A grant by the test on the other holders puts the mode in, and
for every other pair the held mode is at least as strong as the requested one.
-/

namespace Crabstash

namespace LockMode

/-- Every mode that does not go with `mode` does not go with `held`. -/
def AtLeast (held mode : LockMode) : Prop :=
  ∀ other, mode.isCompatible other = false → held.isCompatible other = false

/-- No upgrade leads from `held` to `mode`, and `held` is not enough. -/
def fallsShort : LockMode → LockMode → Bool
  | s, ix => true
  | ix, s => true
  | six, x => true
  | _, _ => false

theorem atLeast_iff {held mode : LockMode} :
    held.AtLeast mode ↔ ∀ other ∈ [s, x, is, ix, six],
      mode.isCompatible other = false → held.isCompatible other = false := by
  constructor
  · intro h other _ hother
    exact h other hother
  · intro h other hother
    exact h other (by cases other <;> decide) hother

instance (held mode : LockMode) : Decidable (held.AtLeast mode) :=
  decidable_of_iff _ atLeast_iff.symm

theorem atLeast_refl (mode : LockMode) : mode.AtLeast mode := fun _ h => h

/-- Where the shortcut is taken, the held mode is enough but for the three pairs. -/
theorem atLeast_iff_of_keeps {held mode : LockMode}
    (hkeeps : (held == mode || !held.canUpgradeTo mode) = true) :
    held.AtLeast mode ↔ held.fallsShort mode = false := by
  revert hkeeps
  cases held <;> cases mode <;> decide

/-- The pairs that fall short are met by the shortcut. -/
theorem keeps_of_fallsShort {held mode : LockMode} (h : held.fallsShort mode = true) :
    (held == mode || !held.canUpgradeTo mode) = true := by
  cases held <;> cases mode <;> first | rfl | contradiction

end LockMode

namespace LockEntry

/-- The mode that is recorded for the transaction is at least as strong as `mode`. -/
def Holds (e : LockEntry) (txnId : ℕ) (mode : LockMode) : Prop :=
  ∃ held, e.getMode txnId = some held ∧ held.AtLeast mode

/-- The transaction asks for a mode that its own neither reaches nor leads to. -/
def FallsShort (e : LockEntry) (txnId : ℕ) (mode : LockMode) : Prop :=
  ∃ held, e.getMode txnId = some held ∧ held.fallsShort mode = true

section

variable {e : LockEntry} {txnId : ℕ} {mode : LockMode}

theorem keeps_iff :
    e.keeps txnId mode = true ↔
      ∃ held, e.getMode txnId = some held ∧ (held == mode || !held.canUpgradeTo mode) = true := by
  unfold keeps getMode
  cases hheld : e.holders.lookup txnId with
  | none => simp
  | some held => simp

theorem holds_insert : (e.insert txnId mode).Holds txnId mode := by
  refine ⟨mode, ?_, mode.atLeast_refl⟩
  rw [getMode_insert, if_pos rfl]

theorem FallsShort.keeps (h : e.FallsShort txnId mode) : e.keeps txnId mode = true := by
  obtain ⟨held, hheld, hshort⟩ := h
  exact keeps_iff.mpr ⟨held, hheld, LockMode.keeps_of_fallsShort hshort⟩

/-- A mode that is kept is enough unless it falls short. -/
theorem holds_iff_of_keeps (hkeeps : e.keeps txnId mode = true) :
    e.Holds txnId mode ↔ ¬e.FallsShort txnId mode := by
  obtain ⟨held, hheld, hkept⟩ := keeps_iff.mp hkeeps
  have hatLeast := LockMode.atLeast_iff_of_keeps hkept
  constructor
  · rintro ⟨held', hheld', hholds⟩ ⟨held'', hheld'', hshort⟩
    rw [hheld] at hheld' hheld''
    cases hheld'
    cases hheld''
    rw [hatLeast.mp hholds] at hshort
    contradiction
  · intro hshort
    refine ⟨held, hheld, hatLeast.mpr ?_⟩
    by_contra hne
    exact hshort ⟨held, hheld, by simpa using hne⟩

/-- After a grant of `try_acquire` the mode is held unless the held one fell short. -/
theorem tryAcquire_holds_iff (hgranted : (e.tryAcquire txnId mode).1 = true) :
    (e.tryAcquire txnId mode).2.Holds txnId mode ↔ ¬e.FallsShort txnId mode := by
  rcases e.tryAcquire_cases txnId mode with
    ⟨hkeeps, htry⟩ | ⟨hkeeps, -, htry⟩ | ⟨-, -, htry⟩
  · rw [htry]
    exact holds_iff_of_keeps hkeeps
  · rw [htry]
    have hshort : ¬e.FallsShort txnId mode := by
      intro h
      rw [h.keeps] at hkeeps
      contradiction
    exact iff_of_true holds_insert hshort
  · rw [htry] at hgranted
    contradiction

theorem step_acquire_ok {timedOut : Bool}
    (hok : (e.step txnId timedOut (.acquire mode)).2 = .done (.locked (.ok ()))) :
    (e.tryAcquire txnId mode).1 = true := by
  rw [step] at hok
  split at hok
  · next htry => rw [htry]
  · contradiction

/-- A turn of the loop that returns has put the mode in. -/
theorem step_acquireLoop_ok {timedOut : Bool}
    (hok : (e.step txnId timedOut (.acquireLoop mode)).2 = .done (.locked (.ok ()))) :
    (e.step txnId timedOut (.acquireLoop mode)).1 = e.insert txnId mode := by
  rw [step] at hok ⊢
  cases timedOut with
  | true =>
      rw [if_pos rfl] at hok
      simp at hok
  | false =>
      rw [if_neg Bool.false_ne_true] at hok ⊢
      rcases e.acquireTurn_cases txnId mode with ⟨-, hturn⟩ | hturn
      · rw [hturn]
      · rw [hturn] at hok
        contradiction

/-- While a transaction holds a mode, no other is put in with a mode that conflicts. -/
theorem Holds.not_compatible (h : e.Holds txnId mode) {txnId' : ℕ} (hne : txnId' ≠ txnId)
    {mode' : LockMode} (hconflict : mode.isCompatible mode' = false) :
    e.isCompatibleWithHolders txnId' mode' = false := by
  obtain ⟨held, hheld, hatLeast⟩ := h
  by_contra hcompatible
  rw [Bool.not_eq_false] at hcompatible
  have hgoes := isCompatibleWithHolders_iff.mp hcompatible txnId held hheld
  have hheldGoes := hgoes.resolve_left hne.symm
  rw [LockMode.isCompatible_comm, hatLeast mode' hconflict] at hheldGoes
  contradiction

end
end LockEntry

namespace EntrySystem

/-- The critical section at which a call of `try_acquire` or `acquire` reports the lock. -/
def Grants (e : LockEntry) (txnId : ℕ) (timedOut : Bool) (mode : LockMode) (call : EntryCall) :
    Prop :=
  (call = .tryAcquire mode ∧ (e.step txnId timedOut call).2 = .done (.acquired true)) ∨
  ((call = .acquire mode ∨ call = .acquireLoop mode) ∧
    (e.step txnId timedOut call).2 = .done (.locked (.ok ())))

/-- The call still has its re-entrant shortcut before it. -/
def AtFirst (mode : LockMode) (call : EntryCall) : Prop :=
  call = .tryAcquire mode ∨ call = .acquire mode

/-- In every run, when a call reports the lock, the recorded mode is at least as strong as
the requested one, and so keeps out every mode that conflicts with it, exactly if the call
did not come, at its first critical section, from a mode that falls short. -/
theorem granted_holds_iff (steps : List EntryStep) (callId txnId : ℕ) (call : EntryCall)
    (timedOut : Bool) (mode : LockMode)
    (hcall : (Run.run step init steps).calls.lookup callId = some (txnId, call))
    (hgrants : Grants (Run.run step init steps).entry txnId timedOut mode call) :
    let e := (Run.run step init (steps ++ [.advance callId timedOut])).entry
    (e.Holds txnId mode ∧
        ∀ txnId' mode', txnId' ≠ txnId → mode.isCompatible mode' = false →
          e.isCompatibleWithHolders txnId' mode' = false) ↔
      ¬(AtFirst mode call ∧ (Run.run step init steps).entry.FallsShort txnId mode) := by
  intro e
  have hentry : e = ((Run.run step init steps).entry.step txnId timedOut call).1 := by
    simp only [e]
    rw [Run.run_append, Run.run_cons, Run.run_nil, step, hcall]
  rw [hentry]
  generalize (Run.run step init steps).entry = e at hgrants ⊢
  have hholds : (e.step txnId timedOut call).1.Holds txnId mode ↔
      ¬(AtFirst mode call ∧ e.FallsShort txnId mode) := by
    -- a first attempt keeps the old mode; a turn of the loop inserts the new one
    rcases hgrants with ⟨rfl, hdone⟩ | ⟨rfl | rfl, hdone⟩
    · have hgranted : (e.tryAcquire txnId mode).1 = true := by
        have := hdone
        rw [LockEntry.step] at this
        simpa using this
      have hfirst : AtFirst mode (.tryAcquire mode) := Or.inl rfl
      simpa [LockEntry.step, hfirst] using LockEntry.tryAcquire_holds_iff hgranted
    · have hgranted := LockEntry.step_acquire_ok hdone
      have hfirst : AtFirst mode (.acquire mode) := Or.inr rfl
      rw [LockEntry.step_acquire_fst]
      simpa [hfirst] using LockEntry.tryAcquire_holds_iff hgranted
    · rw [LockEntry.step_acquireLoop_ok hdone]
      refine iff_of_true LockEntry.holds_insert ?_
      rintro ⟨hfirst | hfirst, -⟩ <;> contradiction
  -- a mode as strong as the requested one keeps out all that the request does
  rw [← hholds]
  constructor
  · rintro ⟨h, -⟩
    exact h
  · intro h
    exact ⟨h, fun txnId' mode' hne hconflict => h.not_compatible hne hconflict⟩

/-- A reader that upgrades in place to IX by `acquire` has the mode on record. -/
theorem granted_upgrade_holds :
    let e := (Run.run step init
      [.acquire 1 .is, .advance 0 false, .acquire 1 .ix, .advance 1 false]).entry
    e.Holds 1 .ix ∧ ∀ txnId' mode', txnId' ≠ 1 → LockMode.ix.isCompatible mode' = false →
      e.isCompatibleWithHolders txnId' mode' = false :=
  (granted_holds_iff [.acquire 1 .is, .advance 0 false, .acquire 1 .ix] 1 1 (.acquire .ix) false
    .ix rfl (Or.inr ⟨Or.inl rfl, rfl⟩)).mpr (by
      rintro ⟨-, held, hheld, hshort⟩
      obtain rfl : .is = held := Option.some.inj hheld
      contradiction)

/-- A reader that asks for IX is told that it has it, and another reader still comes in. -/
theorem granted_reader_falls_short :
    ¬∀ (steps : List EntryStep) (txnId : ℕ) (mode : LockMode),
      let e := (Run.run step init steps).entry
      (e.tryAcquire txnId mode).1 = true → (e.tryAcquire txnId mode).2.Holds txnId mode := by
  intro h
  obtain ⟨held, hheld, hatLeast⟩ := h [.acquire 1 .s, .advance 0 false] 1 .ix (by decide)
  obtain rfl : .s = held := Option.some.inj hheld
  exact absurd hatLeast (by decide)

end EntrySystem
end Crabstash

import Crabstash.Foundations.Run
import Crabstash.Lock.LockEntry

/-!
# Calls on one lock entry

Any number of calls of `try_acquire`, `acquire`, `upgrade` and `release` on one `LockEntry`,
for any transactions and in any modes, in any order of their critical sections.

Modes come in at four places.  Each has tested the mode against the modes of the others
under the same mutex, except for a mode that is held already or that the held one cannot be
upgraded to, where nothing is put in.  The upgrade asks the other way around, whether the
modes that are held go with the new one, and this is the same only because the matrix is
symmetric.  Between its first test and its turns of the loop an upgrade may lose what it
wanted to upgrade, by a `release` for the same transaction; the turn does not look at that,
and does not have to.
-/

namespace Crabstash

/-- What the methods return. -/
inductive EntryResult where
  | acquired (success : Bool)
  | locked (result : Except LockError Unit)
  | released (removed : Bool)

/-- How far a call has come: at its first critical section, or in its loop. -/
inductive EntryCall where
  | tryAcquire (mode : LockMode)
  | acquire (mode : LockMode)
  | acquireLoop (mode : LockMode)
  | upgrade (targetMode : LockMode)
  | upgradeLoop (targetMode : LockMode)
  | release
  | done (result : EntryResult)

namespace LockEntry

/-- The next critical section of a call.  A call in its loop may find that its deadline has
passed. -/
def step (e : LockEntry) (txnId : ℕ) (timedOut : Bool) : EntryCall → LockEntry × EntryCall
  | .tryAcquire mode =>
      let (success, e) := e.tryAcquire txnId mode
      (e, .done (.acquired success))
  | .acquire mode =>
      match e.tryAcquire txnId mode with
      | (true, e) => (e, .done (.locked (.ok ())))
      | (false, e) => (e, .acquireLoop mode)
  | .acquireLoop mode =>
      if timedOut then (e, .done (.locked (.error .timeout)))
      else
        match e.acquireTurn txnId mode with
        | some e => (e, .done (.locked (.ok ())))
        | none => (e, .acquireLoop mode)
  | .upgrade targetMode =>
      match e.checkUpgrade txnId targetMode with
      | .error error => (e, .done (.locked (.error error)))
      | .ok true => (e, .done (.locked (.ok ())))
      | .ok false => (e, .upgradeLoop targetMode)
  | .upgradeLoop targetMode =>
      if timedOut then (e, .done (.locked (.error .timeout)))
      else
        match e.upgradeTurn txnId targetMode with
        | some e => (e, .done (.locked (.ok ())))
        | none => (e, .upgradeLoop targetMode)
  | .release => (e.release txnId, .done (.released (e.getMode txnId).isSome))
  | .done result => (e, .done result)

/-! ## What a critical section does to the holders -/

/-- A mode comes in only if it goes with those of the others. -/
theorem tryAcquire_snd_cases (e : LockEntry) (txnId : ℕ) (mode : LockMode) :
    (e.isCompatibleWithHolders txnId mode = true ∧
      (e.tryAcquire txnId mode).2 = e.insert txnId mode) ∨
    (e.tryAcquire txnId mode).2 = e := by
  rcases e.tryAcquire_cases txnId mode with ⟨-, htry⟩ | ⟨-, hcompatible, htry⟩ | ⟨-, -, htry⟩
  · exact Or.inr (congrArg Prod.snd htry)
  · exact Or.inl ⟨hcompatible, congrArg Prod.snd htry⟩
  · exact Or.inr (congrArg Prod.snd htry)

theorem step_acquire_fst (e : LockEntry) (txnId : ℕ) (timedOut : Bool) (mode : LockMode) :
    (e.step txnId timedOut (.acquire mode)).1 = (e.tryAcquire txnId mode).2 := by
  rw [step]
  split
  · next htry => rw [htry]
  · next htry => rw [htry]

theorem acquireTurn_cases (e : LockEntry) (txnId : ℕ) (mode : LockMode) :
    (e.isCompatibleWithHolders txnId mode = true ∧
      e.acquireTurn txnId mode = some (e.insert txnId mode)) ∨
    e.acquireTurn txnId mode = none := by
  unfold acquireTurn
  cases hcompatible : e.isCompatibleWithHolders txnId mode with
  | true => exact Or.inl ⟨rfl, rfl⟩
  | false => exact Or.inr rfl

/-- A mode comes in that goes with those of the others, or a holder goes, or nothing
changes. -/
theorem step_cases (e : LockEntry) (txnId : ℕ) (timedOut : Bool) (call : EntryCall) :
    (∃ mode, e.isCompatibleWithHolders txnId mode = true ∧
      (e.step txnId timedOut call).1 = e.insert txnId mode) ∨
    (e.step txnId timedOut call).1 = e.release txnId ∨
    (e.step txnId timedOut call).1 = e := by
  cases call with
  | tryAcquire mode =>
      rcases e.tryAcquire_snd_cases txnId mode with ⟨hcompatible, htry⟩ | htry
      · exact Or.inl ⟨mode, hcompatible, htry⟩
      · exact Or.inr (Or.inr htry)
  | acquire mode =>
      rw [step_acquire_fst]
      rcases e.tryAcquire_snd_cases txnId mode with ⟨hcompatible, htry⟩ | htry
      · exact Or.inl ⟨mode, hcompatible, htry⟩
      · exact Or.inr (Or.inr htry)
  | acquireLoop mode =>
      rw [step]
      split
      · exact Or.inr (Or.inr rfl)
      · rcases e.acquireTurn_cases txnId mode with ⟨hcompatible, hturn⟩ | hturn
        · rw [hturn]
          exact Or.inl ⟨mode, hcompatible, rfl⟩
        · rw [hturn]
          exact Or.inr (Or.inr rfl)
  -- `upgrade` only checks; the mode comes in by a turn of its loop
  | upgrade targetMode =>
      rw [step]
      split <;> exact Or.inr (Or.inr rfl)
  | upgradeLoop targetMode =>
      rw [step]
      split
      · exact Or.inr (Or.inr rfl)
      · rw [upgradeTurn_eq]
        rcases e.acquireTurn_cases txnId targetMode with ⟨hcompatible, hturn⟩ | hturn
        · rw [hturn]
          exact Or.inl ⟨targetMode, hcompatible, rfl⟩
        · rw [hturn]
          exact Or.inr (Or.inr rfl)
  | release => exact Or.inr (Or.inl rfl)
  | done result => exact Or.inr (Or.inr rfl)

/-! ## The invariant -/

/-- Any two holders have modes that go with each other. -/
def Compatible (e : LockEntry) : Prop :=
  ∀ txnId txnId' mode mode', txnId ≠ txnId' → e.getMode txnId = some mode →
    e.getMode txnId' = some mode' → mode.isCompatible mode' = true

section

variable {e : LockEntry} {txnId : ℕ}

theorem compatible_new : new.Compatible := by
  intro txnId txnId' mode mode' hne hmode
  contradiction

/-- The new mode goes with those of the others, and they with the new mode. -/
theorem Compatible.insert (h : e.Compatible) {mode : LockMode}
    (hcompatible : e.isCompatibleWithHolders txnId mode = true) :
    (e.insert txnId mode).Compatible := by
  have hothers := isCompatibleWithHolders_iff.mp hcompatible
  intro txn₁ txn₂ mode₁ mode₂ hne hmode₁ hmode₂
  rw [getMode_insert] at hmode₁ hmode₂
  split at hmode₁
  · next heq₁ =>
      rw [if_neg (fun heq₂ => hne (heq₁.trans heq₂.symm))] at hmode₂
      obtain rfl := Option.some.inj hmode₁
      exact (hothers txn₂ mode₂ hmode₂).resolve_left (fun heq₂ => hne (heq₁.trans heq₂.symm))
  · next hne₁ =>
      split at hmode₂
      · obtain rfl := Option.some.inj hmode₂
        rw [LockMode.isCompatible_comm]
        exact (hothers txn₁ mode₁ hmode₁).resolve_left hne₁
      · exact h txn₁ txn₂ mode₁ mode₂ hne hmode₁ hmode₂

theorem Compatible.release (h : e.Compatible) (txnId : ℕ) : (e.release txnId).Compatible := by
  intro txn₁ txn₂ mode₁ mode₂ hne hmode₁ hmode₂
  rw [getMode_release] at hmode₁ hmode₂
  split at hmode₁
  · contradiction
  · split at hmode₂
    · contradiction
    · exact h txn₁ txn₂ mode₁ mode₂ hne hmode₁ hmode₂

theorem Compatible.step (h : e.Compatible) (txnId : ℕ) (timedOut : Bool) (call : EntryCall) :
    (e.step txnId timedOut call).1.Compatible := by
  rcases e.step_cases txnId timedOut call with ⟨mode, hcompatible, heq⟩ | heq | heq
  · rw [heq]
    exact h.insert hcompatible
  · rw [heq]
    exact h.release txnId
  · rw [heq]
    exact h

end
end LockEntry

/-! ## Runs -/

/-- The entry and the calls on it, each with its transaction. -/
structure EntrySystem where
  entry : LockEntry
  calls : HashMap ℕ (ℕ × EntryCall)
  nextCallId : ℕ

/-- A call of the entry is made, or one under way goes on. -/
inductive EntryStep where
  | tryAcquire (txnId : ℕ) (mode : LockMode)
  | acquire (txnId : ℕ) (mode : LockMode)
  | upgrade (txnId : ℕ) (targetMode : LockMode)
  | release (txnId : ℕ)
  | advance (callId : ℕ) (timedOut : Bool)

namespace EntrySystem

/-- A new entry and no calls. -/
def init : EntrySystem := { entry := LockEntry.new, calls := ∅, nextCallId := 0 }

/-- A method is called. -/
def invoke (s : EntrySystem) (txnId : ℕ) (call : EntryCall) : EntrySystem :=
  { s with
    calls := s.calls.insert s.nextCallId (txnId, call)
    nextCallId := s.nextCallId + 1 }

/-- The entry and its calls after a step. -/
def step (s : EntrySystem) : EntryStep → EntrySystem
  | .tryAcquire txnId mode => s.invoke txnId (.tryAcquire mode)
  | .acquire txnId mode => s.invoke txnId (.acquire mode)
  | .upgrade txnId targetMode => s.invoke txnId (.upgrade targetMode)
  | .release txnId => s.invoke txnId .release
  | .advance callId timedOut =>
      match s.calls.lookup callId with
      | none => s
      | some (txnId, call) =>
          let (entry, call) := s.entry.step txnId timedOut call
          { s with entry, calls := s.calls.insert callId (txnId, call) }

theorem compatible_step (s : EntrySystem) (action : EntryStep) (h : s.entry.Compatible) :
    (s.step action).entry.Compatible := by
  cases action with
  | tryAcquire txnId mode => exact h
  | acquire txnId mode => exact h
  | upgrade txnId targetMode => exact h
  | release txnId => exact h
  | advance callId timedOut =>
      rw [step]
      cases hcall : s.calls.lookup callId with
      | none => exact h
      | some call => exact h.step call.1 timedOut call.2

/-- After every run any two distinct holders have compatible modes. -/
theorem compatible_run (steps : List EntryStep) : (Run.run step init steps).entry.Compatible :=
  Run.invariant (fun s : EntrySystem => s.entry.Compatible) compatible_step
    LockEntry.compatible_new steps

/-- An upgrade waits for the other reader, and comes in when it has released. -/
example :
    ((Run.run step init [.acquire 1 .s, .advance 0 false, .acquire 2 .s, .advance 1 false,
      .upgrade 1 .x, .advance 2 false, .advance 2 false, .release 2, .advance 3 false,
      .advance 2 false]).entry.getHolders) = [(1, .x)] := by decide

end EntrySystem
end Crabstash

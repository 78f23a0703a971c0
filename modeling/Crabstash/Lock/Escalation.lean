import Crabstash.Lock.LockCounts

/-!
# Escalation

A transaction that has locked many keys is marked as escalated and gets a range lock from the
least of them to the greatest.  The mark comes first.  The range lock is asked for in the way of
`lock_range`, and its answer is thrown away, so that a transaction whose range lock is refused is
marked and has none, and will not ask again.

So the condition is that what `lock_range` looks at lets every such attempt through (`Passes`).
The rest is `lockedKeys`: the bounding range is made of what has been recorded, and a key is
recorded at a step after the one at which it is granted.  What a call of the same transaction has
been granted at that moment, and not recorded, must be in the range of itself (`Bounded`).
-/

namespace Crabstash

/-! ## Stages of a call -/

/-- The key that the walk over `key_locks` meets, if the step is one of it. -/
def LockChoice.visited : LockChoice → Option Bytes
  | visit key => some key
  | _ => none

namespace LockCall

/-- The key that has been granted and is not among the recorded ones. -/
def unrecordedKey : LockCall → Option Bytes
  | keyUnwait key _ (.ok ()) => some key
  | keyRecord key => some key
  | _ => none

/-- The range lock that an escalation asks for. -/
def attempt (txnId : ℕ) : LockCall → Option RangeLockEntry
  | rangeCheck start last mode true => some { txnId, mode, start, last }
  | rangeIter start last mode true => some { txnId, mode, start, last }
  | rangeScan start last mode true _ => some { txnId, mode, start, last }
  | rangeInsert start last mode true => some { txnId, mode, start, last }
  | _ => none

end LockCall

namespace EscalationState

/-- The action after the last key, if it is a range lock. -/
def escalates (state : EscalationState) (config : EscalationConfig) : Bool :=
  (state.handleEscalationAction (checkEscalation state.keyLockCount config)).1

theorem escalated_handleEscalationAction (state : EscalationState) (action : EscalationAction) :
    (state.handleEscalationAction action).2.escalated =
      (state.escalated || (state.handleEscalationAction action).1) := by
  cases action with
  | none => exact (Bool.or_false _).symm
  | warn => exact (Bool.or_false _).symm
  | escalate => cases h : state.escalated <;> simp [handleEscalationAction, h]
  | forceEscalate => cases h : state.escalated <;> simp [handleEscalationAction, h]

theorem lockedKeys_handleEscalationAction (state : EscalationState) (action : EscalationAction) :
    (state.handleEscalationAction action).2.lockedKeys = state.lockedKeys := by
  cases action <;> rfl

/-- The bounding range has everything in it that is recorded. -/
theorem exists_boundingRange {state : EscalationState} (hne : state.lockedKeys ≠ []) :
    ∃ range, state.computeBoundingRange = some range ∧
      ∀ key ∈ state.lockedKeys, inRange key range = true := by
  obtain ⟨least, hleast⟩ := Option.isSome_iff_exists.mp (List.isSome_min?_iff.mpr hne)
  obtain ⟨greatest, hgreatest⟩ := Option.isSome_iff_exists.mp (List.isSome_max?_iff.mpr hne)
  refine ⟨(.included least, .included greatest), ?_, fun key hkey => ?_⟩
  · rw [computeBoundingRange, hleast, hgreatest]
  · have hle := (List.min?_eq_some_iff.mp hleast).2 key hkey
    have hge := (List.max?_eq_some_iff.mp hgreatest).2 key hkey
    simp [inRange, hle, hge]

end EscalationState

namespace LockTable

/-- The transaction has escalated. -/
def escalated (t : LockTable) (txnId : ℕ) : Bool :=
  (t.escalationState.lookup txnId).any EscalationState.escalated

/-- What `lock_range` looks at lets an escalation through. -/
def Passes (t : LockTable) (txnId : ℕ) (choice : LockChoice) : LockCall → Prop
  | .rangeCheck start last mode true =>
      t.config.enableRangeLocks = true ∧ t.rangeFree txnId start last mode = true
  | .rangeScan start last mode true _ =>
      ∀ key ∈ choice.visited, t.holdersFree txnId start last mode key = true
  | _ => True

instance (t : LockTable) (txnId : ℕ) (choice : LockChoice) (call : LockCall) :
    Decidable (t.Passes txnId choice call) :=
  match call with
  | .rangeCheck _ _ _ true => inferInstanceAs (Decidable (_ ∧ _))
  | .rangeScan _ _ _ true _ => inferInstanceAs (Decidable (∀ key ∈ choice.visited, _))
  | .registerGraph _ _ | .registerEscalation | .keyRange _ _ | .keyEntry _ _ | .keyTry _ _
  | .keyHolders _ _ | .keyEdges _ _ _ | .keyAcquire _ _ _ | .keyWait _ _ _ | .keyUnwait _ _ _
  | .keyRecord _ | .keyEscalate | .keyCount | .rangeCheck _ _ _ false | .rangeIter _ _ _ _
  | .rangeScan _ _ _ false _ | .rangeInsert _ _ _ _ | .upgradeGet _ | .upgradeCheck _
  | .upgradeWait _ | .releaseIter | .releaseKeys _ | .releaseRanges | .releaseWaits
  | .unregisterGraph | .unregisterEscalation | .done _ => inferInstanceAs (Decidable True)

section

variable {t : LockTable} {txnId actor : ℕ} {choice : LockChoice} {call : LockCall} {key : Bytes}

theorem of_grantOn {key' : Bytes} {mode mode' : LockMode}
    (hgrant : t.grantOn txnId key' mode' = .grant key mode) :
    key' = key ∧ (t.entry key').isCompatibleWithHolders txnId mode' = true := by
  rw [grantOn] at hgrant
  split at hgrant
  · next hcompatible => exact ⟨(LockEffect.grant.inj hgrant).1, hcompatible⟩
  · contradiction

theorem tryAcquire_of_grant {key' : Bytes} {mode mode' : LockMode}
    (hgrant : (if (t.entry key').keeps txnId mode' then .none else t.grantOn txnId key' mode') =
      LockEffect.grant key mode) :
    key' = key ∧ ∃ e, (t.entry key').tryAcquire txnId mode' = (true, e) := by
  split at hgrant
  · contradiction
  · next hkeeps =>
      obtain ⟨hkey, hcompatible⟩ := of_grantOn hgrant
      rcases (t.entry key').tryAcquire_cases txnId mode' with
        ⟨-, htry⟩ | ⟨-, -, htry⟩ | ⟨-, hrefused, -⟩
      · exact ⟨hkey, _, htry⟩
      · exact ⟨hkey, _, htry⟩
      · rw [hcompatible] at hrefused
        contradiction

/-- A key that is granted by `lock_key` is on its way to be recorded. -/
theorem unrecordedKey_of_grant {mode : LockMode}
    (heffect : t.effect txnId choice call = .grant key mode)
    (hmethod : call.method ≠ some .upgradeLock) :
    (t.step txnId choice call).2.unrecordedKey = some key := by
  cases call with
  | keyTry key' mode' =>
      obtain ⟨rfl, e, htry⟩ := tryAcquire_of_grant heffect
      rw [step, htry]
      rfl
  | keyAcquire key' mode' holders =>
      obtain ⟨rfl, e, htry⟩ := tryAcquire_of_grant heffect
      rw [step, htry]
      rfl
  | keyWait key' mode' holders =>
      rw [effect] at heffect
      split at heffect
      · contradiction
      · next htimeout =>
          obtain ⟨rfl, hcompatible⟩ := of_grantOn heffect
          rw [step, if_neg htimeout, LockEntry.acquireTurn, if_pos hcompatible]
          rfl
  | upgradeWait key' => exact absurd rfl hmethod
  | releaseKeys todo => cases choice <;> contradiction
  | _ => contradiction

/-- What is on its way to be recorded gets there. -/
theorem unrecordedKey_step (hunrecorded : call.unrecordedKey = some key) :
    (t.step txnId choice call).2.unrecordedKey = some key ∨ call = .keyRecord key := by
  cases call with
  | keyUnwait key' holders result =>
      cases result with
      | ok _ => exact Or.inl hunrecorded
      | error e => contradiction
  | keyRecord key' => exact Or.inr (congrArg _ (Option.some.inj hunrecorded))
  | _ => contradiction

/-! ## The escalation states after a step -/

/-- A state stays and keeps what is recorded, unless the transaction is registered again or
released. -/
theorem exists_escalationState_step
    (hmethod : txnId = actor → call.method ≠ some .registerTxn ∧ call.method ≠ some .releaseAll)
    {state : EscalationState} (hstate : t.escalationState.lookup txnId = some state) :
    ∃ state', (t.step actor choice call).1.escalationState.lookup txnId = some state' ∧
      ∀ key ∈ state.lockedKeys, key ∈ state'.lockedKeys := by
  by_cases heq : txnId = actor
  · obtain ⟨hregistering, hreleasing⟩ := hmethod heq
    subst heq
    rw [escalationState_step_self, hstate]
    cases call with
    | registerEscalation => exact absurd rfl hregistering
    | unregisterEscalation => exact absurd rfl hreleasing
    | keyRecord key => exact ⟨_, rfl, fun key' hmem => List.mem_append_left _ hmem⟩
    | keyEscalate =>
        refine ⟨_, rfl, fun key' hmem => ?_⟩
        rwa [EscalationState.lockedKeys_handleEscalationAction]
    | _ => exact ⟨state, rfl, fun _ hmem => hmem⟩
  · rw [escalationState_step t actor choice call heq]
    exact ⟨state, hstate, fun _ hmem => hmem⟩

/-- A call comes to the escalation when it has recorded its key. -/
theorem of_step_keyEscalate (hcall : (t.step txnId choice call).2 = .keyEscalate) :
    ∃ state, (t.step txnId choice call).1.escalationState.lookup txnId = some state ∧
      state.lockedKeys ≠ [] := by
  cases call with
  | keyRecord key =>
      rw [escalationState_step_self]
      cases hstate : t.escalationState.lookup txnId with
      | none =>
          rw [step, hstate] at hcall
          contradiction
      | some state => exact ⟨state.recordKeyLock key, rfl, List.append_ne_nil_of_right_ne_nil _
          (List.cons_ne_nil _ _)⟩
  -- no other step goes on to the escalation
  | keyRange key mode => rw [step] at hcall; split at hcall <;> contradiction
  | keyEntry key mode => rw [step] at hcall; split at hcall <;> contradiction
  | keyTry key mode => rw [step] at hcall; split at hcall <;> contradiction
  | keyAcquire key mode holders => rw [step] at hcall; split at hcall <;> contradiction
  | keyWait key mode holders =>
      rw [step] at hcall
      split at hcall
      · contradiction
      · split at hcall <;> contradiction
  | keyUnwait key holders result => cases result <;> contradiction
  | keyEscalate =>
      rw [step] at hcall
      split at hcall
      · contradiction
      · simp only at hcall
        split at hcall <;> contradiction
  | rangeCheck start last mode escalating =>
      cases escalating <;> rw [step] at hcall <;> split at hcall <;>
        first | contradiction | (split at hcall <;> contradiction)
  | rangeScan start last mode escalating todo =>
      cases escalating <;> cases choice <;> simp only [step] at hcall <;> split at hcall <;>
        contradiction
  | rangeInsert start last mode escalating => cases escalating <;> contradiction
  | upgradeGet key => rw [step] at hcall; split at hcall <;> contradiction
  | upgradeCheck key => rw [step] at hcall; split at hcall <;> contradiction
  | upgradeWait key =>
      rw [step] at hcall
      split at hcall
      · contradiction
      · split at hcall <;> contradiction
  | releaseKeys todo => cases choice <;> simp only [step] at hcall <;> split at hcall <;> contradiction
  | _ => contradiction

/-- Only an escalation marks a transaction, and its next step is to ask for the range lock. -/
theorem of_marked (hbefore : t.escalated txnId = false)
    (hafter : (t.step actor choice call).1.escalated txnId = true) :
    txnId = actor ∧ call = .keyEscalate ∧ ∃ state,
      t.escalationState.lookup txnId = some state ∧
        state.escalates t.config.escalation = true := by
  rw [escalated] at hbefore hafter
  by_cases heq : txnId = actor
  · subst heq
    refine ⟨rfl, ?_⟩
    rw [escalationState_step_self] at hafter
    cases call with
    | registerEscalation => contradiction
    | unregisterEscalation => contradiction
    | keyRecord key =>
        cases hstate : t.escalationState.lookup txnId with
        | none =>
            rw [hstate] at hafter
            contradiction
        | some state =>
            rw [hstate] at hbefore hafter
            exact absurd (hbefore.symm.trans hafter) Bool.false_ne_true
    | keyEscalate =>
        cases hstate : t.escalationState.lookup txnId with
        | none =>
            rw [hstate] at hafter
            contradiction
        | some state =>
            rw [hstate] at hbefore hafter
            -- the mark is set by the step that escalates, and kept by every other
            have hmarked : (state.handleEscalationAction
                (checkEscalation state.keyLockCount t.config.escalation)).2.escalated = true := hafter
            have hunmarked : state.escalated = false := hbefore
            rw [EscalationState.escalated_handleEscalationAction, hunmarked, Bool.false_or]
              at hmarked
            exact ⟨rfl, state, rfl, hmarked⟩
    | _ => exact absurd (hbefore.symm.trans hafter) Bool.false_ne_true
  · rw [escalationState_step t actor choice call heq, hbefore] at hafter
    contradiction

theorem step_keyEscalate {state : EscalationState}
    (hstate : t.escalationState.lookup txnId = some state)
    (hescalates : state.escalates t.config.escalation = true) {start last : Bound}
    (hrange : state.computeBoundingRange = some (start, last)) :
    (t.step txnId choice .keyEscalate).2 = .rangeCheck start last .x true := by
  have hsame : ∀ action, (state.handleEscalationAction action).2.computeBoundingRange =
      state.computeBoundingRange := by
    intro action
    cases action <;> rfl
  rw [EscalationState.escalates] at hescalates
  rw [step, hstate]
  simp only [hescalates, hsame, hrange]

/-- An attempt that is let through comes to the insertion of its range lock. -/
theorem attempt_step (hpasses : t.Passes txnId choice call) {e : RangeLockEntry}
    (hattempt : call.attempt txnId = some e) :
    (t.step txnId choice call).2.attempt txnId = some e ∨
      t.effect txnId choice call = .insertRange e := by
  cases call with
  | rangeCheck start last mode escalating =>
      cases escalating with
      | false => contradiction
      | true =>
          obtain ⟨henabled, hfree⟩ := hpasses
          rw [step, henabled, hfree]
          exact Or.inl hattempt
  | rangeIter start last mode escalating =>
      cases escalating with
      | false => contradiction
      | true => exact Or.inl hattempt
  | rangeScan start last mode escalating todo =>
      cases escalating with
      | false => contradiction
      | true =>
          cases choice with
          | visit key =>
              have hfree := hpasses key rfl
              simp only [step, hfree]
              exact Or.inl hattempt
          | next => simp only [step]; split <;> exact Or.inl hattempt
          | timeout => simp only [step]; split <;> exact Or.inl hattempt
  | rangeInsert start last mode escalating =>
      cases escalating with
      | false => contradiction
      | true => exact Or.inr (congrArg _ (Option.some.inj hattempt))
  | _ => contradiction

/-- Only a release takes a range lock out. -/
theorem mem_ranges_step (hreleasing : call.method ≠ some .releaseAll) {e : RangeLockEntry}
    (hmem : e ∈ t.rangeLocks.entries) : e ∈ (t.step actor choice call).1.rangeLocks.entries := by
  rw [rangeLocks_step]
  rcases effect_cases hreleasing with heffect | ⟨key, mode, heffect⟩ | ⟨e', heffect⟩
  · rw [heffect]
    exact hmem
  · rw [heffect]
    exact hmem
  · rw [heffect, rangesAfter, IntervalTree.entries_insert]
    exact List.mem_append_left _ hmem

end
end LockTable

/-! ## The system -/

namespace LockSystem

/-- Every transaction is registered once and before anything else, and calls `lock_key` and
`lock_range`. -/
def LockingStep (s : LockSystem) : LockStep → Prop
  | .call txnId (.registerTxn _ _) => ∀ e ∈ s.calls.entries, e.2.1 ≠ txnId
  | .call txnId (.lockKey _ _) => s.table.escalationState.lookup txnId ≠ none
  | .call txnId (.lockRange _ _ _) => s.table.escalationState.lookup txnId ≠ none
  | .call _ _ => False
  | .advance _ _ => True

instance (s : LockSystem) (action : LockStep) : Decidable (s.LockingStep action) :=
  match action with
  | .call _ (.registerTxn _ _) => inferInstanceAs (Decidable (∀ e ∈ s.calls.entries, _))
  | .call _ (.lockKey _ _) => inferInstanceAs (Decidable (_ ≠ _))
  | .call _ (.lockRange _ _ _) => inferInstanceAs (Decidable (_ ≠ _))
  | .call _ .unregisterTxn => inferInstanceAs (Decidable False)
  | .call _ (.upgradeLock _) => inferInstanceAs (Decidable False)
  | .call _ .releaseAll => inferInstanceAs (Decidable False)
  | .advance _ _ => inferInstanceAs (Decidable True)

/-- If the transaction escalates now, what its calls have been granted and not recorded is in the
bounding range. -/
def Bounded (s : LockSystem) (txnId : ℕ) : Prop :=
  ∀ state ∈ s.table.escalationState.lookup txnId,
    state.escalates s.table.config.escalation = true →
      ∀ range ∈ state.computeBoundingRange, ∀ e ∈ s.calls.entries, e.2.1 = txnId →
        ∀ key ∈ e.2.2.unrecordedKey, inRange key range = true

instance (s : LockSystem) (txnId : ℕ) : Decidable (s.Bounded txnId) :=
  inferInstanceAs (Decidable (∀ state ∈ s.table.escalationState.lookup txnId, _ →
    ∀ range ∈ state.computeBoundingRange, ∀ e ∈ s.calls.entries, _ →
      ∀ key ∈ e.2.2.unrecordedKey, _))

/-- An escalation is not refused, and leaves nothing out. -/
def CoveringStep (s : LockSystem) : LockStep → Prop
  | .call _ _ => True
  | .advance callId choice =>
      ∀ c ∈ s.calls.lookup callId,
        s.table.Passes c.1 choice c.2 ∧ (c.2 = .keyEscalate → s.Bounded c.1)

instance (s : LockSystem) (action : LockStep) : Decidable (s.CoveringStep action) :=
  match action with
  | .call _ _ => inferInstanceAs (Decidable True)
  | .advance callId _ =>
      inferInstanceAs (Decidable (∀ c ∈ s.calls.lookup callId, _ ∧ (_ → _)))

/-- The step marks the transaction as escalated. -/
def Marks (s : LockSystem) (action : LockStep) (txnId : ℕ) : Prop :=
  s.table.escalated txnId = false ∧ (s.step action).table.escalated txnId = true

instance (s : LockSystem) (action : LockStep) (txnId : ℕ) : Decidable (s.Marks action txnId) :=
  inferInstanceAs (Decidable (_ ∧ _))

/-- The tree has a range lock of the transaction in mode `X` that contains all the keys. -/
def Covered (s : LockSystem) (txnId : ℕ) (keys : List Bytes) : Prop :=
  ∃ e ∈ s.table.rangeLocks.entries, e.txnId = txnId ∧ e.mode = .x ∧
    ∀ key ∈ keys, e.containsKey key = true

instance (s : LockSystem) (txnId : ℕ) (keys : List Bytes) : Decidable (s.Covered txnId keys) :=
  inferInstanceAs (Decidable (∃ e ∈ s.table.rangeLocks.entries, _))

/-- Whenever a transaction has been marked, and the call that marked it is through with its
attempt, a range lock contains every key that it had locked when it was marked. -/
def EscalationCovers (config : LockConfig) (steps : List LockStep) : Prop :=
  ∀ before action after txnId, steps = before ++ action :: after →
    (Run.run step (init config) before).Marks action txnId →
      (∀ callId call, (Run.run step (init config) steps).calls.lookup callId =
        some (txnId, call) → call.attempt txnId = none) →
          (Run.run step (init config) steps).Covered txnId
            ((Run.run step (init config) before).table.heldKeys txnId)

/-- The key is recorded, or a call of the transaction is about to. -/
def Records (s : LockSystem) (txnId : ℕ) (key : Bytes) : Prop :=
  (∃ state, s.table.escalationState.lookup txnId = some state ∧ key ∈ state.lockedKeys) ∨
    ∃ callId call, s.calls.lookup callId = some (txnId, call) ∧ call.unrecordedKey = some key

/-- Of every transaction that is registered all keys are recorded. -/
structure Recorded (s : LockSystem) : Prop where
  fresh : ∀ callId, s.nextCallId ≤ callId → s.calls.lookup callId = none
  known : ∀ txnId, s.table.escalationState.lookup txnId ≠ none →
    ∃ callId call, s.calls.lookup callId = some (txnId, call)
  registering : ∀ callId txnId call, s.calls.lookup callId = some (txnId, call) →
    call.method = some .registerTxn → s.table.escalationState.lookup txnId = none ∧
      ∀ other call', s.calls.lookup other = some (txnId, call') → other = callId
  locking : ∀ callId txnId call, s.calls.lookup callId = some (txnId, call) →
    call.method = some .lockKey → s.table.escalationState.lookup txnId ≠ none
  others : ∀ callId txnId call, s.calls.lookup callId = some (txnId, call) →
    call.method ≠ some .upgradeLock ∧ call.method ≠ some .releaseAll
  held : ∀ txnId key, s.table.modeOf key txnId ≠ none → s.Records txnId key
  escalating : ∀ callId txnId, s.calls.lookup callId = some (txnId, .keyEscalate) →
    ∃ state, s.table.escalationState.lookup txnId = some state ∧ state.lockedKeys ≠ []

theorem recorded_init (config : LockConfig) : (init config).Recorded where
  fresh := fun _ _ => rfl
  known := by
    intro txnId hstate
    exact absurd rfl hstate
  registering := by
    intro callId txnId call hlookup
    contradiction
  locking := by
    intro callId txnId call hlookup
    contradiction
  others := by
    intro callId txnId call hlookup
    contradiction
  held := by
    intro txnId key hheld
    exact absurd rfl hheld
  escalating := by
    intro callId txnId hlookup
    contradiction

section

variable {s : LockSystem} {txnId actor callId other : ℕ} {choice : LockChoice}
  {call call' : LockCall}

/-- A call that goes on is in the method that it was in. -/
theorem method_eq_of_step {method : LockMethod}
    (hmethod : (s.table.step actor choice call).2.method = some method) :
    call.method = some method := by
  rcases s.table.method_step actor choice call with heq | ⟨result, hdone⟩
  · rw [← heq, hmethod]
  · rw [hdone] at hmethod
    contradiction

/-- There is a state of a transaction after a step if there is one before, with the same keys. -/
theorem Recorded.exists_state (h : s.Recorded)
    (hlookup : s.calls.lookup callId = some (actor, call)) (choice : LockChoice)
    {state : EscalationState} (hstate : s.table.escalationState.lookup txnId = some state) :
    ∃ state', (s.advanced callId actor choice call).table.escalationState.lookup txnId =
      some state' ∧ ∀ key ∈ state.lockedKeys, key ∈ state'.lockedKeys := by
  refine LockTable.exists_escalationState_step (fun heq => ⟨fun hregistering => ?_, ?_⟩) hstate
  · rw [heq, (h.registering callId actor call hlookup hregistering).1] at hstate
    contradiction
  · exact (h.others callId actor call hlookup).2

theorem Recorded.lookup_ne_none (h : s.Recorded)
    (hlookup : s.calls.lookup callId = some (actor, call)) (choice : LockChoice)
    (hstate : s.table.escalationState.lookup txnId ≠ none) :
    (s.advanced callId actor choice call).table.escalationState.lookup txnId ≠ none := by
  obtain ⟨state, hstate⟩ := Option.ne_none_iff_exists'.mp hstate
  obtain ⟨state', hstate', -⟩ := h.exists_state hlookup choice hstate
  rw [hstate']
  exact Option.some_ne_none _

theorem Recorded.registering_advance (h : s.Recorded)
    (hlookup : s.calls.lookup callId = some (actor, call))
    (hlookup' : (s.advanced callId actor choice call).calls.lookup other = some (txnId, call'))
    (hmethod : call'.method = some .registerTxn) :
    (s.advanced callId actor choice call).table.escalationState.lookup txnId = none ∧
      ∀ other' call'', (s.advanced callId actor choice call).calls.lookup other' =
        some (txnId, call'') → other' = other := by
  rcases of_lookup_advanced hlookup' with ⟨rfl, rfl, rfl⟩ | ⟨hne, hold⟩
  · have hregistering := method_eq_of_step hmethod
    obtain ⟨hnone, hunique⟩ := h.registering other txnId call hlookup hregistering
    refine ⟨?_, fun other' call'' hother => ?_⟩
    · rcases LockCall.of_registers hregistering with ⟨startTs, priority, rfl⟩ | rfl
      · exact hnone
      · contradiction
    · rcases of_lookup_advanced hother with ⟨heq, -, -⟩ | ⟨-, hother⟩
      · exact heq
      · exact hunique other' call'' hother
  · obtain ⟨hnone, hunique⟩ := h.registering other txnId call' hold hmethod
    -- the call that goes on is one of another transaction
    have hactor : txnId ≠ actor := by
      rintro rfl
      exact hne (hunique callId call hlookup).symm
    refine ⟨(LockTable.escalationState_step s.table actor choice call hactor).trans hnone,
      fun other' call'' hother => ?_⟩
    rcases of_lookup_advanced hother with ⟨-, heq, -⟩ | ⟨-, hother⟩
    · exact absurd heq hactor
    · exact hunique other' call'' hother

/-- A key is recorded after a step if it was before. -/
theorem Recorded.records_advance (h : s.Recorded)
    (hlookup : s.calls.lookup callId = some (actor, call)) {key : Bytes}
    (hrecords : s.Records txnId key) : (s.advanced callId actor choice call).Records txnId key := by
  rcases hrecords with ⟨state, hstate, hmem⟩ | ⟨other, call', hother, hunrecorded⟩
  · obtain ⟨state', hstate', hkeys⟩ := h.exists_state hlookup choice hstate
    exact Or.inl ⟨state', hstate', hkeys key hmem⟩
  · by_cases heq : other = callId
    · rw [heq, hlookup] at hother
      obtain ⟨rfl, rfl⟩ := Prod.mk.inj (Option.some.inj hother)
      rcases LockTable.unrecordedKey_step hunrecorded with hnext | rfl
      · exact Or.inr ⟨callId, _, AList.lookup_insert _, hnext⟩
      · obtain ⟨state, hstate⟩ := Option.ne_none_iff_exists'.mp
          (h.locking callId actor (.keyRecord key) hlookup rfl)
        refine Or.inl ⟨state.recordKeyLock key, ?_, List.mem_append_right _ (List.mem_singleton_self _)⟩
        rw [advanced, LockTable.escalationState_step_self, hstate]
        rfl
    · exact Or.inr ⟨other, call', (AList.lookup_insert_ne heq).trans hother, hunrecorded⟩

theorem Recorded.advance (h : s.Recorded) (hlookup : s.calls.lookup callId = some (actor, call)) :
    (s.advanced callId actor choice call).Recorded where
  fresh := fresh_advanced h.fresh hlookup choice
  known := by
    intro txnId hstate
    by_cases heq : txnId = actor
    · subst heq
      exact ⟨callId, _, AList.lookup_insert _⟩
    · rw [advanced, LockTable.escalationState_step s.table actor choice call heq] at hstate
      obtain ⟨other, call', hother⟩ := h.known txnId hstate
      exact ⟨other, call', lookup_advanced hlookup hother heq choice⟩
  registering := fun _ _ _ hlookup' hmethod => h.registering_advance hlookup hlookup' hmethod
  locking := by
    intro other txnId call' hother hmethod
    apply h.lookup_ne_none hlookup
    rcases of_lookup_advanced hother with ⟨-, rfl, rfl⟩ | ⟨-, hold⟩
    · exact h.locking callId txnId call hlookup (method_eq_of_step hmethod)
    · exact h.locking other txnId call' hold hmethod
  others := by
    intro other txnId call' hother
    rcases of_lookup_advanced hother with ⟨-, rfl, rfl⟩ | ⟨-, hold⟩
    · obtain ⟨hupgrading, hreleasing⟩ := h.others callId txnId call hlookup
      exact ⟨fun hmethod => hupgrading (method_eq_of_step hmethod),
        fun hmethod => hreleasing (method_eq_of_step hmethod)⟩
    · exact h.others other txnId call' hold
  held := by
    intro txnId key hheld
    rw [advanced, LockTable.modeOf_step] at hheld
    cases heffect : s.table.effect actor choice call with
    | grant key' mode =>
        simp only [heffect] at hheld
        by_cases hself : key = key' ∧ txnId = actor
        · obtain ⟨rfl, rfl⟩ := hself
          -- a key just granted is one that the call has still to record
          have hupgrading := (h.others callId txnId call hlookup).1
          exact Or.inr ⟨callId, _, AList.lookup_insert _,
            LockTable.unrecordedKey_of_grant heffect hupgrading⟩
        · rw [if_neg hself] at hheld
          exact h.records_advance hlookup (h.held txnId key hheld)
    | release key' =>
        simp only [heffect] at hheld
        split at hheld
        · exact absurd rfl hheld
        · exact h.records_advance hlookup (h.held txnId key hheld)
    | none =>
        simp only [heffect] at hheld
        exact h.records_advance hlookup (h.held txnId key hheld)
    | insertRange e =>
        simp only [heffect] at hheld
        exact h.records_advance hlookup (h.held txnId key hheld)
    | removeRanges =>
        simp only [heffect] at hheld
        exact h.records_advance hlookup (h.held txnId key hheld)
  escalating := by
    intro other txnId hother
    rcases of_lookup_advanced hother with ⟨-, rfl, hcall⟩ | ⟨-, hold⟩
    · exact LockTable.of_step_keyEscalate hcall.symm
    -- recorded keys stay recorded, so the list stays non-empty
    · obtain ⟨state, hstate, hne⟩ := h.escalating other txnId hold
      obtain ⟨state', hstate', hkeys⟩ := h.exists_state hlookup choice hstate
      obtain ⟨key, hkey⟩ := List.exists_mem_of_ne_nil _ hne
      exact ⟨state', hstate', List.ne_nil_of_mem (hkeys key hkey)⟩

theorem Recorded.request (h : s.Recorded) {request : LockRequest}
    (hlocking : s.LockingStep (.call txnId request)) :
    (s.step (.call txnId request)).Recorded := by
  -- a call of a transaction that is being registered is not allowed
  have hunregistered : ∀ {callId call}, s.calls.lookup callId = some (txnId, call) →
      call.method ≠ some .registerTxn := by
    intro callId call hlookup hregistering
    have hnone := (h.registering callId txnId call hlookup hregistering).1
    cases request with
    | registerTxn startTs priority =>
        exact hlocking ⟨callId, (txnId, call)⟩ (AList.mem_lookup_iff.mp hlookup) rfl
    | lockKey key mode => exact hlocking hnone
    | lockRange start last mode => exact hlocking hnone
    | _ => exact hlocking.elim
  refine ⟨fresh_request h.fresh txnId request, fun other hstate => ?_,
    fun callId other call hlookup hmethod => ?_, fun callId other call hlookup hmethod => ?_,
    fun callId other call hlookup => ?_, fun other key hheld => ?_, fun callId other hlookup => ?_⟩
  · obtain ⟨callId, call, hlookup⟩ := h.known other hstate
    exact ⟨callId, call, lookup_request h.fresh hlookup txnId request⟩
  · rcases of_lookup_request hlookup with ⟨rfl, rfl, rfl⟩ | hold
    · cases request with
      | registerTxn startTs priority =>
          have hnone : ∀ other' call', s.calls.lookup other' ≠ some (txnId, call') :=
            fun other' call' hother =>
              hlocking ⟨other', (txnId, call')⟩ (AList.mem_lookup_iff.mp hother) rfl
          refine ⟨?_, fun other' call' hother => ?_⟩
          · by_contra hstate
            obtain ⟨other', call', hother⟩ := h.known txnId hstate
            exact hnone other' call' hother
          · rcases of_lookup_request hother with ⟨heq, -, -⟩ | hother
            · exact heq
            · exact absurd hother (hnone other' call')
      | _ => simp [LockRequest.call, LockCall.method] at hmethod
    · obtain ⟨hnone, hunique⟩ := h.registering callId other call hold hmethod
      refine ⟨hnone, fun other' call' hother => ?_⟩
      rcases of_lookup_request hother with ⟨-, rfl, -⟩ | hother
      · exact absurd hmethod (hunregistered hold)
      · exact hunique other' call' hother
  · rcases of_lookup_request hlookup with ⟨-, rfl, rfl⟩ | hold
    · cases request with
      | lockKey key mode => exact hlocking
      | _ => simp [LockRequest.call, LockCall.method] at hmethod
    · exact h.locking callId other call hold hmethod
  · rcases of_lookup_request hlookup with ⟨-, rfl, rfl⟩ | hold
    · cases request with
      | registerTxn startTs priority => exact ⟨by simp [LockRequest.call, LockCall.method],
          by simp [LockRequest.call, LockCall.method]⟩
      | lockKey key mode => exact ⟨by simp [LockRequest.call, LockCall.method],
          by simp [LockRequest.call, LockCall.method]⟩
      | lockRange start last mode => exact ⟨by simp [LockRequest.call, LockCall.method],
          by simp [LockRequest.call, LockCall.method]⟩
      | _ => exact hlocking.elim
    · exact h.others callId other call hold
  · rcases h.held other key hheld with hrecorded | ⟨callId, call, hlookup, hunrecorded⟩
    · exact Or.inl hrecorded
    · exact Or.inr ⟨callId, call, lookup_request h.fresh hlookup txnId request, hunrecorded⟩
  · rcases of_lookup_request hlookup with ⟨-, -, hcall⟩ | hold
    · cases request <;> contradiction
    · exact h.escalating callId other hold

theorem Recorded.step (h : s.Recorded) {action : LockStep} (hlocking : s.LockingStep action) :
    (s.step action).Recorded := by
  cases action with
  | call txnId request => exact h.request hlocking
  | advance callId choice =>
      rw [LockSystem.step]
      cases hlookup : s.calls.lookup callId with
      | none => exact h
      | some c => exact h.advance hlookup

/-! ## From the mark to the range lock -/

/-- A range lock over the keys is in the tree, or a call of the transaction is about to put it
there. -/
def Covering (s : LockSystem) (txnId : ℕ) (keys : List Bytes) : Prop :=
  ∃ e : RangeLockEntry, e.txnId = txnId ∧ e.mode = .x ∧
    (∀ key ∈ keys, e.containsKey key = true) ∧
      (e ∈ s.table.rangeLocks.entries ∨
        ∃ callId call, s.calls.lookup callId = some (txnId, call) ∧ call.attempt txnId = some e)

/-- The range that is asked for has everything in it that the transaction holds. -/
theorem Recorded.covering_of_marks (h : s.Recorded) {action : LockStep}
    (hmarks : s.Marks action txnId) (hcovering : s.CoveringStep action) :
    (s.step action).Covering txnId (s.table.heldKeys txnId) := by
  obtain ⟨hbefore, hafter⟩ := hmarks
  cases action with
  | call other request => exact absurd (hbefore.symm.trans hafter) Bool.false_ne_true
  | advance callId choice =>
      rw [LockSystem.step] at hafter ⊢
      cases hlookup : s.calls.lookup callId with
      | none =>
          rw [hlookup] at hafter
          exact absurd (hbefore.symm.trans hafter) Bool.false_ne_true
      | some c =>
          obtain ⟨actor, call⟩ := c
          rw [hlookup] at hafter
          obtain ⟨rfl, rfl, state, hstate, hescalates⟩ := LockTable.of_marked hbefore hafter
          obtain ⟨state', hstate', hne⟩ := h.escalating callId txnId hlookup
          obtain rfl := Option.some.inj (hstate'.symm.trans hstate)
          obtain ⟨⟨start, last⟩, hrange, hrecorded⟩ := EscalationState.exists_boundingRange hne
          refine ⟨{ txnId, mode := .x, start, last }, rfl, rfl, fun key hkey => ?_, Or.inr
            ⟨callId, .rangeCheck start last .x true, ?_, rfl⟩⟩
          · rcases h.held txnId key (LockTable.mem_heldKeys.mp hkey) with
              ⟨state', hstate', hmem⟩ | ⟨other, call, hother, hunrecorded⟩
            · obtain rfl := Option.some.inj (hstate'.symm.trans hstate)
              exact hrecorded key hmem
            · exact (hcovering (txnId, .keyEscalate) hlookup).2 rfl state' hstate hescalates
                (start, last) hrange ⟨other, (txnId, call)⟩ (AList.mem_lookup_iff.mp hother) rfl key
                hunrecorded
          · rw [← LockTable.step_keyEscalate hstate hescalates hrange]
            exact AList.lookup_insert _

theorem Recorded.covering_step (h : s.Recorded) {keys : List Bytes}
    (hcovering : s.Covering txnId keys) {action : LockStep} (hpasses : s.CoveringStep action)
    (hlocking : s.LockingStep action) : (s.step action).Covering txnId keys := by
  obtain ⟨e, htxn, hmode, hkeys, he⟩ := hcovering
  refine ⟨e, htxn, hmode, hkeys, ?_⟩
  cases action with
  | call other request =>
      rcases he with hmem | ⟨callId, call, hlookup, hattempt⟩
      · exact Or.inl hmem
      · exact Or.inr ⟨callId, call, lookup_request h.fresh hlookup other request, hattempt⟩
  | advance callId choice =>
      rw [LockSystem.step]
      cases hlookup : s.calls.lookup callId with
      | none => exact he
      | some c =>
          obtain ⟨actor, call⟩ := c
          rcases he with hmem | ⟨other, call', hother, hattempt⟩
          · exact Or.inl (LockTable.mem_ranges_step (h.others callId actor call hlookup).2 hmem)
          · by_cases heq : other = callId
            · rw [heq, hlookup] at hother
              obtain ⟨rfl, rfl⟩ := Prod.mk.inj (Option.some.inj hother)
              rcases LockTable.attempt_step (hpasses _ hlookup).1 hattempt with hnext | heffect
              · exact Or.inr ⟨callId, _, AList.lookup_insert _, hnext⟩
              · refine Or.inl ?_
                show e ∈ (s.table.step actor choice call).1.rangeLocks.entries
                rw [LockTable.rangeLocks_step, heffect, LockTable.rangesAfter,
                  IntervalTree.entries_insert]
                exact List.mem_append_right _ (List.mem_singleton_self e)
            · exact Or.inr ⟨other, call', (AList.lookup_insert_ne heq).trans hother, hattempt⟩

end

/-- In every run in which no escalation is refused, whoever is marked has its range lock. -/
theorem escalationCovers_run (config : LockConfig) (steps : List LockStep)
    (hlocking : Run.Along step LockingStep (init config) steps)
    (hcovering : Run.Along step CoveringStep (init config) steps) :
    EscalationCovers config steps := by
  rintro before action after txnId rfl hmarks hquiet
  obtain ⟨hbefore, haction, hafter⟩ := Run.along_append.mp (hlocking.and hcovering)
  have hrecorded : (Run.run step (init config) before).Recorded :=
    hbefore.invariant Recorded (fun s action h hstep => h.step hstep.1) (recorded_init config)
  -- from the marking step on, the range lock is there or about to be
  have hrun := hafter.invariant
    (fun s => s.Recorded ∧
      s.Covering txnId ((Run.run step (init config) before).table.heldKeys txnId))
    (fun s action h hstep =>
      ⟨h.1.step hstep.1, h.1.covering_step h.2 hstep.2 hstep.1⟩)
    ⟨hrecorded.step haction.1, hrecorded.covering_of_marks hmarks haction.2⟩
  rw [Run.run_append, Run.run_cons] at hquiet ⊢
  obtain ⟨-, e, htxn, hmode, hkeys, hmem | ⟨callId, call, hlookup, hattempt⟩⟩ := hrun
  · exact ⟨e, hmem, htxn, hmode, hkeys⟩
  · rw [hquiet callId call hlookup] at hattempt
    contradiction

/-- A transaction escalates with its second key. -/
def smallConfig : LockConfig :=
  { enableRangeLocks := true
    escalation := { warningThreshold := 1, autoEscalateThreshold := 2, emergencyThreshold := 3 } }

/-- The second transaction locks a key behind those of the first, which escalates. -/
def escalatedRun : List LockStep :=
  called 1 (.registerTxn 0 0) 0 2 ++ called 2 (.registerTxn 1 0) 1 2 ++
    called 2 (.lockKey [122] .x) 2 6 ++ called 1 (.lockKey [97] .x) 3 6 ++
    called 1 (.lockKey [99] .s) 4 7 ++
    [LockStep.advance 4 (.visit [122]), .advance 4 (.visit [97]), .advance 4 (.visit [99])] ++ advances 4 3

theorem escalationCovers_escalatedRun : EscalationCovers smallConfig escalatedRun :=
  escalationCovers_run smallConfig escalatedRun (by decide +kernel) (by decide +kernel)

/-- The second transaction locks a key between those of the first, whose range lock is refused. -/
def refusedRun : List LockStep :=
  called 1 (.registerTxn 0 0) 0 2 ++ called 2 (.registerTxn 1 0) 1 2 ++
    called 2 (.lockKey [98] .x) 2 6 ++ called 1 (.lockKey [97] .x) 3 6 ++
    called 1 (.lockKey [99] .x) 4 7 ++ [LockStep.advance 4 (.visit [98])] ++ advances 4 1

theorem not_escalationCovers_refusedRun :
    Run.Along step LockingStep (init smallConfig) refusedRun ∧
      ¬ EscalationCovers smallConfig refusedRun := by
  refine ⟨by decide +kernel, fun h => ?_⟩
  have hattempts : ∀ e ∈ (Run.run step (init smallConfig) refusedRun).calls.entries,
      e.2.2.attempt e.2.1 = none := by decide +kernel
  have hcovered := h (refusedRun.take 25) (.advance 4 .next) (refusedRun.drop 26) 1
    (by decide) (by decide +kernel) fun callId call hlookup =>
      hattempts ⟨callId, (1, call)⟩ (AList.mem_lookup_iff.mp hlookup)
  exact absurd hcovered (by decide +kernel)

end LockSystem
end Crabstash

import Crabstash.Lock.Exclusion
import Crabstash.Lock.Release

/-!
# The number of locks

How many keys a transaction holds is written down in two counters: the escalation state has one,
and the wait-for graph another, by which a victim is chosen.  Both go up at the end of every
`lock_key` that is granted, at two steps of their own.

The counters are true as long as every such lock is a new one.  It is not when the transaction
holds the key already, in the same mode, in a stronger one, or in mode `S` when it asks for `X`:
the entry has one holder as before, and the counters go up.  And `register_txn` starts both at
zero, whatever the transaction holds.

Between the grant and the counters a call is `uncounted`, which is what the invariant (`Counted`)
adds to them.  Nothing is known of the counters while a release is under way, and nothing needs to
be: at its end they are gone.
-/

namespace Crabstash

/-! ## Stages of a call -/

/-- The methods that the steps of a call are told apart by. -/
inductive LockMethod where
  | registerTxn
  | lockKey
  | lockRange
  | upgradeLock
  | releaseAll
  deriving DecidableEq, Repr

namespace LockCall

/-- The call has its key, and the graph has not counted it. -/
def uncounted : LockCall → Bool
  | keyUnwait _ _ (.ok ()) => true
  | keyRecord _ => true
  | keyEscalate => true
  | keyCount => true
  | rangeCheck _ _ _ escalating => escalating
  | rangeIter _ _ _ escalating => escalating
  | rangeScan _ _ _ escalating _ => escalating
  | rangeInsert _ _ _ escalating => escalating
  | _ => false

/-- The call has its key, and the escalation state has not counted it. -/
def unrecorded : LockCall → Bool
  | keyUnwait _ _ (.ok ()) => true
  | keyRecord _ => true
  | _ => false

/-- The method that a call is one of, until it returns; an escalation is a part of `lock_key`. -/
def method : LockCall → Option LockMethod
  | registerGraph _ _ => some .registerTxn
  | registerEscalation => some .registerTxn
  | rangeCheck _ _ _ escalating => some (if escalating then .lockKey else .lockRange)
  | rangeIter _ _ _ escalating => some (if escalating then .lockKey else .lockRange)
  | rangeScan _ _ _ escalating _ => some (if escalating then .lockKey else .lockRange)
  | rangeInsert _ _ _ escalating => some (if escalating then .lockKey else .lockRange)
  | upgradeGet _ => some .upgradeLock
  | upgradeCheck _ => some .upgradeLock
  | upgradeWait _ => some .upgradeLock
  | releaseIter => some .releaseAll
  | releaseKeys _ => some .releaseAll
  | releaseRanges => some .releaseAll
  | releaseWaits => some .releaseAll
  | unregisterGraph => some .releaseAll
  | unregisterEscalation => some .releaseAll
  | done _ => none
  | _ => some .lockKey

/-- How often the graph is told of a lock in the next step. -/
def counts : LockCall → ℕ
  | keyCount => 1
  | _ => 0

/-- How often the escalation state is told of a lock in the next step. -/
def records : LockCall → ℕ
  | keyRecord _ => 1
  | _ => 0

theorem of_registers {call : LockCall} (h : call.method = some .registerTxn) :
    (∃ startTs priority, call = .registerGraph startTs priority) ∨ call = .registerEscalation := by
  cases call with
  | registerGraph startTs priority => exact Or.inl ⟨startTs, priority, rfl⟩
  | registerEscalation => exact Or.inr rfl
  | _ => simp [method, ite_eq_iff] at h

theorem of_upgrades {call : LockCall} (h : call.method = some .upgradeLock) :
    (∃ key, call = .upgradeGet key) ∨ (∃ key, call = .upgradeCheck key) ∨
      ∃ key, call = .upgradeWait key := by
  cases call with
  | upgradeGet key => exact Or.inl ⟨key, rfl⟩
  | upgradeCheck key => exact Or.inr (Or.inl ⟨key, rfl⟩)
  | upgradeWait key => exact Or.inr (Or.inr ⟨key, rfl⟩)
  | _ => simp [method, ite_eq_iff] at h

/-- The stages of a release, with the last two first. -/
theorem of_releases {call : LockCall} (h : call.method = some .releaseAll) :
    call = .unregisterEscalation ∨ call = .unregisterGraph ∨ call = .releaseIter ∨
      (∃ todo, call = .releaseKeys todo) ∨ call = .releaseRanges ∨ call = .releaseWaits := by
  cases call with
  | unregisterEscalation => simp
  | unregisterGraph => simp
  | releaseIter => simp
  | releaseKeys todo => simp
  | releaseRanges => simp
  | releaseWaits => simp
  | _ => simp [method, ite_eq_iff] at h

end LockCall

/-- An attempt in this mode succeeds. -/
def LockEntry.grants (e : LockEntry) (txnId : ℕ) (mode : LockMode) : Bool :=
  e.keeps txnId mode || e.isCompatibleWithHolders txnId mode

namespace LockTable

/-! ## The keys of a transaction -/

/-- The keys whose entry lists the transaction as a holder. -/
def heldKeys (t : LockTable) (txnId : ℕ) : List Bytes :=
  t.keyLocks.keys.filter fun key => (t.modeOf key txnId).isSome

section

variable {t t' : LockTable} {txnId : ℕ} {key : Bytes}

theorem nodup_heldKeys (t : LockTable) (txnId : ℕ) : (t.heldKeys txnId).Nodup :=
  t.keyLocks.nodupKeys.filter _

theorem mem_heldKeys : key ∈ t.heldKeys txnId ↔ t.modeOf key txnId ≠ none := by
  rw [heldKeys, List.mem_filter, Option.isSome_iff_ne_none]
  exact and_iff_right_of_imp mem_keys_of_modeOf

theorem length_heldKeys_congr
    (hsame : ∀ key, t'.modeOf key txnId ≠ none ↔ t.modeOf key txnId ≠ none) :
    (t'.heldKeys txnId).length = (t.heldKeys txnId).length := by
  apply List.Perm.length_eq
  rw [List.perm_ext_iff_of_nodup (nodup_heldKeys t' txnId) (nodup_heldKeys t txnId)]
  intro key
  rw [mem_heldKeys, mem_heldKeys, hsame]

theorem length_heldKeys_of_new (hnew : t.modeOf key txnId = none)
    (hgrant : ∀ key', t'.modeOf key' txnId ≠ none ↔ key' = key ∨ t.modeOf key' txnId ≠ none) :
    (t'.heldKeys txnId).length = (t.heldKeys txnId).length + 1 := by
  have hnot : key ∉ t.heldKeys txnId := fun hmem => mem_heldKeys.mp hmem hnew
  rw [← List.length_cons (a := key)]
  apply List.Perm.length_eq
  rw [List.perm_ext_iff_of_nodup (nodup_heldKeys t' txnId)
    (List.nodup_cons.mpr ⟨hnot, nodup_heldKeys t txnId⟩)]
  intro key'
  rw [List.mem_cons, mem_heldKeys, mem_heldKeys, hgrant]

end

/-! ## The counters -/

/-- The number of locks in the wait-for graph, if the transaction is registered. -/
def lockCount (t : LockTable) (txnId : ℕ) : Option ℕ :=
  (t.waiterGraph.txnInfo.lookup txnId).map TxnInfo.lockCount

/-- The number of locks in the escalation state, if the transaction is registered. -/
def keyLockCount (t : LockTable) (txnId : ℕ) : Option ℕ :=
  (t.escalationState.lookup txnId).map EscalationState.keyLockCount

/-- What the step makes of the `lock_count` of its transaction. -/
def lockCountAfter (count : Option ℕ) : LockCall → Option ℕ
  | .registerGraph _ _ => some 0
  | .keyCount => count.map (· + 1)
  | .unregisterGraph => none
  | _ => count

/-- What the step makes of the `key_lock_count` of its transaction. -/
def keyLockCountAfter (count : Option ℕ) : LockCall → Option ℕ
  | .registerEscalation => some 0
  | .keyRecord _ => count.map (· + 1)
  | .unregisterEscalation => none
  | _ => count

section

variable {t : LockTable} {txnId actor : ℕ} {choice : LockChoice} {call : LockCall}

theorem txnInfo_addWaitEdges (g : WaitForGraph) (waiter : ℕ) (holders : List ℕ) :
    (holders.foldl (fun g holder => g.addWaitEdge waiter holder) g).txnInfo = g.txnInfo := by
  induction holders generalizing g with
  | nil => rfl
  | cons holder rest ih =>
      rw [List.foldl_cons, ih, WaitForGraph.addWaitEdge]
      split <;> rfl

theorem txnInfo_removeWaitEdges (g : WaitForGraph) (waiter : ℕ) (holders : List ℕ) :
    (holders.foldl (fun g holder => g.removeWaitEdge waiter holder) g).txnInfo = g.txnInfo := by
  induction holders generalizing g with
  | nil => rfl
  | cons holder rest ih =>
      rw [List.foldl_cons, ih, WaitForGraph.removeWaitEdge]
      split
      · rfl
      · simp only
        split <;> rfl

/-- What is looked up after a value of the transaction has been replaced. -/
theorem map_lookup_insert {α ν : Type} (m : HashMap ℕ ν) (actor txnId : ℕ) (v : ν) (f : ν → α) :
    ((m.insert actor v).lookup txnId).map f =
      if txnId = actor then some (f v) else (m.lookup txnId).map f := by
  split
  · next heq => rw [heq, AList.lookup_insert, Option.map_some]
  · next hne => rw [AList.lookup_insert_ne hne]

theorem map_lookup_erase {α ν : Type} (m : HashMap ℕ ν) (actor txnId : ℕ) (f : ν → α) :
    ((m.erase actor).lookup txnId).map f =
      if txnId = actor then none else (m.lookup txnId).map f := by
  split
  · next heq => rw [heq, AList.lookup_erase, Option.map_none]
  · next hne => rw [AList.lookup_erase_ne hne]

theorem lockCount_step (t : LockTable) (actor : ℕ) (choice : LockChoice) (call : LockCall)
    (txnId : ℕ) : (t.step actor choice call).1.lockCount txnId =
      if txnId = actor then lockCountAfter (t.lockCount actor) call else t.lockCount txnId := by
  -- a graph with the same records has the same count
  have hsame : ∀ {g : WaitForGraph}, g.txnInfo = t.waiterGraph.txnInfo →
      (g.txnInfo.lookup txnId).map TxnInfo.lockCount =
        if txnId = actor then t.lockCount actor else t.lockCount txnId := by
    intro g hinfo
    rw [hinfo]
    split
    · next heq => rw [heq, lockCount]
    · rfl
  rw [lockCount, waiterGraph_step]
  cases call with
  | registerGraph startTs priority => exact map_lookup_insert _ _ _ _ _
  | keyEdges key mode holders => exact hsame (txnInfo_addWaitEdges _ _ _)
  | keyUnwait key holders result => exact hsame (txnInfo_removeWaitEdges _ _ _)
  | keyCount =>
      rw [graphAfter, WaitForGraph.incrementLockCount, lockCountAfter]
      cases hinfo : t.waiterGraph.txnInfo.lookup actor with
      | none =>
          have hnone : t.lockCount actor = none := by rw [lockCount, hinfo, Option.map_none]
          rw [hnone, Option.map_none, ← hnone]
          exact hsame rfl
      | some info =>
          have hcount : t.lockCount actor = some info.lockCount := by
            rw [lockCount, hinfo, Option.map_some]
          rw [hcount]
          exact map_lookup_insert _ _ _ _ _
  | unregisterGraph => exact map_lookup_erase _ _ _ _
  | _ => exact hsame rfl

/-- The escalation state of the transaction after a step of one of its calls. -/
def escalationAfter (config : EscalationConfig) (state : Option EscalationState) :
    LockCall → Option EscalationState
  | .registerEscalation => some EscalationState.new
  | .keyRecord key => state.map fun state => state.recordKeyLock key
  | .keyEscalate => state.map fun state =>
      (state.handleEscalationAction (checkEscalation state.keyLockCount config)).2
  | .unregisterEscalation => none
  | _ => state

theorem escalationState_step_self (t : LockTable) (actor : ℕ) (choice : LockChoice)
    (call : LockCall) : (t.step actor choice call).1.escalationState.lookup actor =
      escalationAfter t.config.escalation (t.escalationState.lookup actor) call := by
  cases call with
  | registerEscalation => exact AList.lookup_insert _
  | unregisterEscalation => exact AList.lookup_erase _ _
  | keyRecord key =>
      rw [step, escalationAfter]
      cases hstate : t.escalationState.lookup actor with
      | none => exact hstate
      | some state => exact AList.lookup_insert _
  | keyEscalate =>
      rw [step, escalationAfter]
      cases hstate : t.escalationState.lookup actor with
      | none => exact hstate
      | some state =>
          simp only
          split <;> exact AList.lookup_insert _
  -- no other step touches the state of the escalation
  | keyRange key mode => rw [step]; split <;> rfl
  | keyEntry key mode => rw [step]; split <;> rfl
  | keyTry key mode => rw [step]; split <;> rfl
  | keyAcquire key mode holders => rw [step]; split <;> rfl
  | keyWait key mode holders =>
      rw [step]
      split
      · rfl
      · split <;> rfl
  | rangeCheck start last mode escalating =>
      rw [step]
      split
      · rfl
      · split <;> rfl
  | rangeScan start last mode escalating todo =>
      cases choice <;> simp only [step] <;> split <;> rfl
  | upgradeGet key => rw [step]; split <;> rfl
  | upgradeCheck key => rw [step]; split <;> rfl
  | upgradeWait key =>
      rw [step]
      split
      · rfl
      · split <;> rfl
  | releaseKeys todo =>
      cases choice <;> simp only [step] <;> split <;> rfl
  | _ => rfl

theorem keyLockCount_step (t : LockTable) (actor : ℕ) (choice : LockChoice) (call : LockCall)
    (txnId : ℕ) : (t.step actor choice call).1.keyLockCount txnId =
      if txnId = actor then keyLockCountAfter (t.keyLockCount actor) call
      else t.keyLockCount txnId := by
  by_cases heq : txnId = actor
  · subst heq
    rw [if_pos rfl, keyLockCount, escalationState_step_self, keyLockCount]
    cases call with
    | keyRecord key =>
        show Option.map _ (Option.map _ _) = Option.map _ (Option.map _ _)
        rw [Option.map_map, Option.map_map]
        rfl
    | keyEscalate =>
        -- the action changes the marks, not the count
        have hcount : ∀ (state : EscalationState) action,
            (state.handleEscalationAction action).2.keyLockCount = state.keyLockCount := by
          intro state action
          cases action <;> rfl
        show Option.map _ (Option.map _ _) = Option.map _ _
        rw [Option.map_map]
        exact congrArg (Option.map · _) (funext fun state => hcount state _)
    | _ => rfl
  · rw [if_neg heq, keyLockCount, escalationState_step t actor choice call heq, keyLockCount]

/-! ## What a call of `lock_key` counts -/

/-- If an attempt of `lock_key` succeeds, it is for a key that the transaction does not hold. -/
def NewGrant (t : LockTable) (txnId : ℕ) (choice : LockChoice) : LockCall → Prop
  | .keyTry key mode => (t.entry key).grants txnId mode = true → t.modeOf key txnId = none
  | .keyAcquire key mode _ => (t.entry key).grants txnId mode = true → t.modeOf key txnId = none
  | .keyWait key mode _ =>
      choice ≠ .timeout → (t.entry key).isCompatibleWithHolders txnId mode = true →
        t.modeOf key txnId = none
  | _ => True

instance (t : LockTable) (txnId : ℕ) (choice : LockChoice) (call : LockCall) :
    Decidable (t.NewGrant txnId choice call) :=
  match call with
  | .keyTry _ _ => inferInstanceAs (Decidable (_ → _))
  | .keyAcquire _ _ _ => inferInstanceAs (Decidable (_ → _))
  | .keyWait _ _ _ => inferInstanceAs (Decidable (_ → _ → _))
  | .registerGraph _ _ | .registerEscalation | .keyRange _ _ | .keyEntry _ _ | .keyHolders _ _
  | .keyEdges _ _ _ | .keyUnwait _ _ _ | .keyRecord _ | .keyEscalate | .keyCount
  | .rangeCheck _ _ _ _ | .rangeIter _ _ _ _ | .rangeScan _ _ _ _ _ | .rangeInsert _ _ _ _
  | .upgradeGet _ | .upgradeCheck _ | .upgradeWait _ | .releaseIter | .releaseKeys _
  | .releaseRanges | .releaseWaits | .unregisterGraph | .unregisterEscalation | .done _ =>
      inferInstanceAs (Decidable True)

/-- The keys that are held and the locks that are still to be counted after a step. -/
structure Tallied (t : LockTable) (txnId : ℕ) (choice : LockChoice) (call : LockCall) (n : ℕ) :
    Prop where
  held : ((t.step txnId choice call).1.heldKeys txnId).length = (t.heldKeys txnId).length + n
  uncounted : (t.step txnId choice call).2.uncounted.toNat + call.counts = call.uncounted.toNat + n
  unrecorded :
    (t.step txnId choice call).2.unrecorded.toNat + call.records = call.unrecorded.toNat + n

theorem length_heldKeys_of_effect
    (hgrant : ∀ key mode, t.effect txnId choice call ≠ .grant key mode)
    (hrelease : ∀ key, t.effect txnId choice call ≠ .release key) :
    ((t.step txnId choice call).1.heldKeys txnId).length = (t.heldKeys txnId).length := by
  apply length_heldKeys_congr
  intro key
  rw [modeOf_step]
  cases heffect : t.effect txnId choice call with
  | grant key' mode => exact absurd heffect (hgrant key' mode)
  | release key' => exact absurd heffect (hrelease key')
  | _ => rfl

theorem length_heldKeys_of_grant {key : Bytes} {mode : LockMode}
    (heffect : t.effect txnId choice call = .grant key mode) (hnew : t.modeOf key txnId = none) :
    ((t.step txnId choice call).1.heldKeys txnId).length = (t.heldKeys txnId).length + 1 := by
  apply length_heldKeys_of_new hnew
  intro key'
  rw [modeOf_step, heffect]
  by_cases hkey : key' = key <;> simp [hkey]

/-- Another mode for a key that is held. -/
theorem length_heldKeys_of_held {key : Bytes} {mode : LockMode}
    (heffect : t.effect txnId choice call = .grant key mode) (hheld : t.modeOf key txnId ≠ none) :
    ((t.step txnId choice call).1.heldKeys txnId).length = (t.heldKeys txnId).length := by
  apply length_heldKeys_congr
  intro key'
  rw [modeOf_step, heffect]
  by_cases hkey : key' = key <;> simp [hkey, hheld]

/-- An attempt that succeeds adds a key, and one that does not adds none. -/
theorem tallied_of_attempt {key : Bytes} {mode : LockMode} {taken refused : LockCall}
    (hstep : t.step txnId choice call = match (t.entry key).tryAcquire txnId mode with
      | (true, e) => (t.setEntry key e, taken)
      | (false, _) => (t, refused))
    (heffect : t.effect txnId choice call =
      if (t.entry key).keeps txnId mode then .none else t.grantOn txnId key mode)
    (hnew : (t.entry key).grants txnId mode = true → t.modeOf key txnId = none)
    (hcall : call.uncounted = false ∧ call.unrecorded = false ∧ call.counts = 0 ∧ call.records = 0)
    (htaken : taken.uncounted = true ∧ taken.unrecorded = true)
    (hrefused : refused.uncounted = false ∧ refused.unrecorded = false) :
    ∃ n, t.Tallied txnId choice call n := by
  obtain ⟨huncounted, hunrecorded, hcounts, hrecords⟩ := hcall
  rcases (t.entry key).tryAcquire_cases txnId mode with
    ⟨hkeeps, -⟩ | ⟨hkeeps, hcompatible, htry⟩ | ⟨hkeeps, hcompatible, htry⟩
  · -- what is kept is held
    have hnone := hnew (by rw [LockEntry.grants, hkeeps, Bool.true_or])
    have hnone : (t.entry key).holders.lookup txnId = none := hnone
    rw [LockEntry.keeps, hnone] at hkeeps
    contradiction
  -- a grant adds the key, and the call still has to count it
  · have hnone := hnew (by rw [LockEntry.grants, hcompatible, Bool.or_true])
    have hgrant : t.effect txnId choice call = .grant key mode := by
      rw [heffect, hkeeps, grantOn, hcompatible]
      rfl
    refine ⟨1, length_heldKeys_of_grant hgrant hnone, ?_, ?_⟩
    · rw [hstep, htry, htaken.1, hcounts, huncounted]
      rfl
    · rw [hstep, htry, htaken.2, hrecords, hunrecorded]
      rfl
  -- a refusal changes nothing
  · have hnone : t.effect txnId choice call = .none := by
      rw [heffect, hkeeps, grantOn, hcompatible]
      rfl
    refine ⟨0, length_heldKeys_of_effect (by simp [hnone]) (by simp [hnone]), ?_, ?_⟩
    · rw [hstep, htry, hrefused.1, hcounts, huncounted]
    · rw [hstep, htry, hrefused.2, hrecords, hunrecorded]

/-- The same for a turn of the wait. -/
theorem tallied_keyWait {key : Bytes} {mode : LockMode} {holders : List ℕ}
    (hchoice : choice ≠ .timeout)
    (hnew : (t.entry key).isCompatibleWithHolders txnId mode = true → t.modeOf key txnId = none) :
    ∃ n, t.Tallied txnId choice (.keyWait key mode holders) n := by
  have heffect : t.effect txnId choice (.keyWait key mode holders) = t.grantOn txnId key mode := by
    rw [effect, if_neg hchoice]
  rw [grantOn] at heffect
  -- a turn of the wait comes in or goes on waiting
  cases hcompatible : (t.entry key).isCompatibleWithHolders txnId mode with
  | true =>
      have hstep : t.step txnId choice (.keyWait key mode holders) =
          (t.setEntry key ((t.entry key).insert txnId mode), .keyUnwait key holders (.ok ())) := by
        rw [step, if_neg hchoice, LockEntry.acquireTurn, if_pos hcompatible]
      rw [hcompatible] at heffect
      refine ⟨1, length_heldKeys_of_grant heffect (hnew hcompatible), ?_, ?_⟩
      · rw [hstep]
        rfl
      · rw [hstep]
        rfl
  | false =>
      have hstep : t.step txnId choice (.keyWait key mode holders) =
          (t, .keyWait key mode holders) := by
        rw [step, if_neg hchoice, LockEntry.acquireTurn, hcompatible]
        rfl
      rw [hcompatible] at heffect
      refine ⟨0, length_heldKeys_of_effect (by simp [heffect]) (by simp [heffect]), ?_, ?_⟩
      · rw [hstep]
        rfl
      · rw [hstep]
        rfl

/-- An upgrade exchanges the mode of a key that is held. -/
theorem length_heldKeys_upgradeWait {key : Bytes} (hheld : t.modeOf key txnId ≠ none) :
    ((t.step txnId choice (.upgradeWait key)).1.heldKeys txnId).length =
      (t.heldKeys txnId).length := by
  have hcases : t.effect txnId choice (.upgradeWait key) = .none ∨
      t.effect txnId choice (.upgradeWait key) = .grant key .x := by
    rw [effect]
    split
    · exact Or.inl rfl
    · exact t.grantOn_cases txnId key .x
  rcases hcases with hnone | hgrant
  · exact length_heldKeys_of_effect (by simp [hnone]) (by simp [hnone])
  · exact length_heldKeys_of_held hgrant hheld

theorem exists_tallied (hreleasing : call.method ≠ some .releaseAll)
    (hregistering : call.method ≠ some .registerTxn) (hnew : t.NewGrant txnId choice call)
    (hupgrade : ∀ key, call = .upgradeWait key → t.modeOf key txnId ≠ none) :
    ∃ n, t.Tallied txnId choice call n := by
  -- a step that adds no key and leaves what is still to be counted
  have hquiet : t.effect txnId choice call = .none →
      (t.step txnId choice call).2.uncounted.toNat + call.counts = call.uncounted.toNat →
        (t.step txnId choice call).2.unrecorded.toNat + call.records = call.unrecorded.toNat →
          ∃ n, t.Tallied txnId choice call n := fun heffect huncounted hunrecorded =>
    ⟨0, length_heldKeys_of_effect (by simp [heffect]) (by simp [heffect]), huncounted, hunrecorded⟩
  cases call with
  | registerGraph startTs priority => contradiction
  | registerEscalation => contradiction
  | keyRange key mode =>
      apply hquiet rfl <;> rw [step] <;> split <;> rfl
  | keyEntry key mode =>
      apply hquiet rfl <;> rw [step] <;> split <;> rfl
  | keyTry key mode =>
      exact tallied_of_attempt rfl rfl hnew ⟨rfl, rfl, rfl, rfl⟩ ⟨rfl, rfl⟩ ⟨rfl, rfl⟩
  | keyHolders key mode => exact hquiet rfl rfl rfl
  | keyEdges key mode holders => exact hquiet rfl rfl rfl
  | keyAcquire key mode holders =>
      exact tallied_of_attempt rfl rfl hnew ⟨rfl, rfl, rfl, rfl⟩ ⟨rfl, rfl⟩ ⟨rfl, rfl⟩
  | keyWait key mode holders =>
      by_cases htimeout : choice = .timeout
      · subst htimeout
        exact hquiet rfl rfl rfl
      · exact tallied_keyWait htimeout (hnew htimeout)
  | keyUnwait key holders result =>
      cases result with
      | ok _ => exact hquiet rfl rfl rfl
      | error e => exact hquiet rfl rfl rfl
  | keyRecord key =>
      apply hquiet rfl <;> rw [step] <;> split <;> rfl
  | keyEscalate =>
      apply hquiet rfl <;> rw [step] <;> split
      · rfl
      · simp only
        split <;> rfl
      · rfl
      · simp only
        split <;> rfl
  | keyCount => exact hquiet rfl rfl rfl
  | rangeCheck start last mode escalating =>
      cases escalating <;> apply hquiet rfl <;> rw [step] <;> split <;>
        first | rfl | (split <;> rfl)
  | rangeIter start last mode escalating => exact hquiet rfl rfl rfl
  | rangeScan start last mode escalating todo =>
      cases escalating <;> apply hquiet rfl <;> cases choice <;> simp only [step] <;> split <;> rfl
  | rangeInsert start last mode escalating =>
      have heffect : ∃ e, t.effect txnId choice (.rangeInsert start last mode escalating) =
          .insertRange e := ⟨_, rfl⟩
      obtain ⟨e, heffect⟩ := heffect
      refine ⟨0, length_heldKeys_of_effect (by simp [heffect]) (by simp [heffect]), ?_, ?_⟩ <;>
        cases escalating <;> rfl
  | upgradeGet key =>
      apply hquiet rfl <;> rw [step] <;> split <;> rfl
  | upgradeCheck key =>
      apply hquiet rfl <;> rw [step] <;> split <;> rfl
  | upgradeWait key =>
      refine ⟨0, length_heldKeys_upgradeWait (hupgrade key rfl), ?_, ?_⟩
      · rw [step]
        split
        · rfl
        · split <;> rfl
      · rw [step]
        split
        · rfl
        · split <;> rfl
  | done result => exact hquiet rfl rfl rfl
  | _ => contradiction

/-- A call stays in its method until it returns. -/
theorem method_step (t : LockTable) (txnId : ℕ) (choice : LockChoice) (call : LockCall) :
    (t.step txnId choice call).2.method = call.method ∨
      ∃ result, (t.step txnId choice call).2 = .done result := by
  -- inside an escalation the call goes back to `lock_key`
  have hdone : ∀ escalating result,
      (rangeDone escalating result).method = some (if escalating then .lockKey else .lockRange) ∨
        ∃ result', rangeDone escalating result = .done result' := by
    intro escalating result
    cases escalating with
    | true => exact Or.inl rfl
    | false => exact Or.inr ⟨result, rfl⟩
  cases call with
  | registerGraph startTs priority => exact Or.inl rfl
  | registerEscalation => exact Or.inr ⟨_, rfl⟩
  | keyRange key mode =>
      rw [step]
      split
      · exact Or.inr ⟨_, rfl⟩
      · exact Or.inl rfl
  | keyEntry key mode => rw [step]; split <;> exact Or.inl rfl
  | keyTry key mode => rw [step]; split <;> exact Or.inl rfl
  | keyHolders key mode => exact Or.inl rfl
  | keyEdges key mode holders => exact Or.inl rfl
  | keyAcquire key mode holders => rw [step]; split <;> exact Or.inl rfl
  | keyWait key mode holders =>
      rw [step]
      split
      · exact Or.inl rfl
      · split <;> exact Or.inl rfl
  | keyUnwait key holders result =>
      cases result with
      | ok _ => exact Or.inl rfl
      | error e => exact Or.inr ⟨_, rfl⟩
  | keyRecord key => rw [step]; split <;> exact Or.inl rfl
  | keyEscalate =>
      rw [step]
      split
      · exact Or.inl rfl
      · simp only
        split <;> exact Or.inl rfl
  | keyCount => exact Or.inr ⟨_, rfl⟩
  | rangeCheck start last mode escalating =>
      rw [step]
      split
      · exact hdone escalating _
      · split
        · exact hdone escalating _
        · exact Or.inl rfl
  | rangeIter start last mode escalating => exact Or.inl rfl
  | rangeScan start last mode escalating todo =>
      cases choice with
      | visit key =>
          simp only [step]
          split
          · exact hdone escalating _
          · exact Or.inl rfl
      | next => simp only [step]; split <;> exact Or.inl rfl
      | timeout => simp only [step]; split <;> exact Or.inl rfl
  | rangeInsert start last mode escalating => exact hdone escalating _
  | upgradeGet key =>
      rw [step]
      split
      · exact Or.inr ⟨_, rfl⟩
      · exact Or.inl rfl
  | upgradeCheck key =>
      rw [step]
      split
      · exact Or.inr ⟨_, rfl⟩
      · exact Or.inr ⟨_, rfl⟩
      · exact Or.inl rfl
  | upgradeWait key =>
      rw [step]
      split
      · exact Or.inr ⟨_, rfl⟩
      · split
        · exact Or.inr ⟨_, rfl⟩
        · exact Or.inl rfl
  | releaseIter => exact Or.inl rfl
  | releaseKeys todo =>
      cases choice <;> simp only [step] <;> split <;> exact Or.inl rfl
  | releaseRanges => exact Or.inl rfl
  | releaseWaits => exact Or.inl rfl
  | unregisterGraph => exact Or.inl rfl
  | unregisterEscalation => exact Or.inr ⟨_, rfl⟩
  | done result => exact Or.inr ⟨_, rfl⟩

/-- Only a release takes locks away. -/
theorem effect_cases (hreleasing : call.method ≠ some .releaseAll) :
    t.effect actor choice call = .none ∨
      (∃ key mode, t.effect actor choice call = .grant key mode) ∨
        ∃ e, t.effect actor choice call = .insertRange e := by
  -- an attempt grants the key or does nothing
  have hgrantOn : ∀ key mode, t.grantOn actor key mode = .none ∨
      (∃ key' mode', t.grantOn actor key mode = .grant key' mode') ∨
        ∃ e, t.grantOn actor key mode = .insertRange e := by
    intro key mode
    exact (t.grantOn_cases actor key mode).imp_right fun hgrant => Or.inl ⟨key, mode, hgrant⟩
  cases call with
  | keyTry key mode =>
      rw [effect]
      split
      · exact Or.inl rfl
      · exact hgrantOn key mode
  | keyAcquire key mode holders =>
      rw [effect]
      split
      · exact Or.inl rfl
      · exact hgrantOn key mode
  | keyWait key mode holders =>
      rw [effect]
      split
      · exact Or.inl rfl
      · exact hgrantOn key mode
  | upgradeWait key =>
      rw [effect]
      split
      · exact Or.inl rfl
      · exact hgrantOn key .x
  | rangeInsert start last mode escalating => exact Or.inr (Or.inr ⟨_, rfl⟩)
  | releaseKeys todo => exact absurd rfl hreleasing
  | releaseRanges => exact absurd rfl hreleasing
  | _ => exact Or.inl rfl

theorem modeOf_ne_none_step (hreleasing : call.method ≠ some .releaseAll) {key : Bytes}
    (hheld : t.modeOf key txnId ≠ none) : (t.step actor choice call).1.modeOf key txnId ≠ none := by
  rw [modeOf_step]
  rcases effect_cases hreleasing with heffect | ⟨key', mode, heffect⟩ | ⟨e, heffect⟩
  · rw [heffect]
    exact hheld
  · rw [heffect]
    simp only
    split
    · simp
    · exact hheld
  · rw [heffect]
    exact hheld

/-- Who waits for an upgrade has seen that the key is held. -/
theorem of_step_upgradeWait {key : Bytes}
    (hcall : (t.step txnId choice call).2 = .upgradeWait key) :
    call = .upgradeWait key ∨ call = .upgradeCheck key ∧ t.modeOf key txnId ≠ none := by
  have hmethod := t.method_step txnId choice call
  rw [hcall] at hmethod
  obtain hmethod | ⟨result, hdone⟩ := hmethod
  · obtain ⟨key', rfl⟩ | ⟨key', rfl⟩ | ⟨key', rfl⟩ := LockCall.of_upgrades hmethod.symm
    · rw [step] at hcall
      split at hcall <;> contradiction
    · rw [step] at hcall
      split at hcall
      · contradiction
      · contradiction
      · next hcheck =>
          obtain rfl := LockCall.upgradeWait.inj hcall
          refine Or.inr ⟨rfl, fun hnone => ?_⟩
          have hnone : (t.entry key').holders.lookup txnId = none := hnone
          rw [LockEntry.checkUpgrade, hnone] at hcheck
          contradiction
    · rw [step] at hcall
      split at hcall
      · contradiction
      · split at hcall
        · contradiction
        · exact Or.inl hcall
  · contradiction

/-- A release takes the escalation state out last. -/
theorem of_release_returns (hmethod : call.method = some .releaseAll)
    (hreturns : (t.step txnId choice call).2.method ≠ some .releaseAll) :
    call = .unregisterEscalation := by
  obtain rfl | rfl | rfl | ⟨todo, rfl⟩ | rfl | rfl := LockCall.of_releases hmethod
  · rfl
  · exact absurd rfl hreturns
  · exact absurd rfl hreturns
  · cases choice <;> simp only [step] at hreturns <;> split at hreturns <;>
      exact absurd rfl hreturns
  · exact absurd rfl hreturns
  · exact absurd rfl hreturns

/-- And it comes to that from the graph. -/
theorem of_step_unregisterEscalation
    (hcall : (t.step txnId choice call).2 = .unregisterEscalation) : call = .unregisterGraph := by
  have hmethod := t.method_step txnId choice call
  rw [hcall] at hmethod
  obtain hmethod | ⟨result, hdone⟩ := hmethod
  · obtain rfl | rfl | rfl | ⟨todo, rfl⟩ | rfl | rfl := LockCall.of_releases hmethod.symm
    · contradiction
    · rfl
    · contradiction
    · cases choice <;> simp only [step] at hcall <;> split at hcall <;> contradiction
    · contradiction
    · contradiction
  · contradiction

end
end LockTable

/-! ## The invariant -/

namespace LockSystem

/-- The calls of the transaction at one of these stages. -/
def callsOf (s : LockSystem) (txnId : ℕ) (stage : LockCall → Bool) : ℕ :=
  s.calls.countWhere fun c => c.1 == txnId && stage c.2

/-- No other call of the transaction is under way. -/
def Alone (s : LockSystem) (txnId callId : ℕ) : Prop :=
  ∀ e ∈ s.calls.entries, e.2.1 = txnId → e.1 = callId ∨ e.2.2.result ≠ none

instance (s : LockSystem) (txnId callId : ℕ) : Decidable (s.Alone txnId callId) :=
  inferInstanceAs (Decidable (∀ e ∈ s.calls.entries, _))

/-- A `lock_key` that succeeds is for a key that its transaction does not hold, and a transaction
that is registered holds none and has no other call under way. -/
def ReadyStep (s : LockSystem) : LockStep → Prop
  | .call _ _ => True
  | .advance callId choice =>
      ∀ c ∈ s.calls.lookup callId, s.table.NewGrant c.1 choice c.2 ∧
        (c.2.method = some .registerTxn → s.table.heldKeys c.1 = [] ∧ s.Alone c.1 callId)

instance (s : LockSystem) (action : LockStep) : Decidable (s.ReadyStep action) :=
  match action with
  | .call _ _ => inferInstanceAs (Decidable True)
  | .advance callId _ =>
      inferInstanceAs (Decidable (∀ c ∈ s.calls.lookup callId, _ ∧ (_ → _ ∧ _)))

/-- When no call of a transaction is under way, both counters have the number of keys whose entry
lists it as a holder, if it is registered. -/
def CountsTrue (s : LockSystem) : Prop :=
  ∀ txnId, (∀ callId call, s.calls.lookup callId = some (txnId, call) → call.result ≠ none) →
    (∀ n ∈ s.table.lockCount txnId, n = (s.table.heldKeys txnId).length) ∧
      ∀ n ∈ s.table.keyLockCount txnId, n = (s.table.heldKeys txnId).length

/-- No release of the transaction is under way. -/
def NotReleasing (s : LockSystem) (txnId : ℕ) : Prop :=
  ∀ callId call, s.calls.lookup callId = some (txnId, call) → call.method ≠ some .releaseAll

/-- With the calls that have their key already, the counters are true of a transaction that is not
being released. -/
structure Counted (s : LockSystem) (txnId : ℕ) : Prop where
  graph : ∀ n ∈ s.table.lockCount txnId,
    n + s.callsOf txnId LockCall.uncounted = (s.table.heldKeys txnId).length
  escalation : ∀ n ∈ s.table.keyLockCount txnId,
    n + s.callsOf txnId LockCall.unrecorded = (s.table.heldKeys txnId).length
  upgrades : s.table.lockCount txnId ≠ none ∨ s.table.keyLockCount txnId ≠ none →
    ∀ callId key, s.calls.lookup callId = some (txnId, .upgradeWait key) →
      s.table.modeOf key txnId ≠ none

/-- What a run keeps: the counters are true of a transaction until its release, and the graph
has none of one that is about to be unregistered for escalation. -/
structure Tallied (s : LockSystem) : Prop where
  fresh : ∀ callId, s.nextCallId ≤ callId → s.calls.lookup callId = none
  counted : ∀ txnId, s.NotReleasing txnId → s.Counted txnId
  unregistered : ∀ txnId callId,
    s.calls.lookup callId = some (txnId, .unregisterEscalation) → s.table.lockCount txnId = none

theorem tallied_init (config : LockConfig) : (init config).Tallied where
  fresh := fun _ _ => rfl
  counted := by
    intro txnId _
    refine ⟨?_, ?_, ?_⟩
    · intro n hn
      contradiction
    · intro n hn
      contradiction
    · intro _ callId key hlookup
      contradiction
  unregistered := by
    intro txnId callId hlookup
    contradiction

theorem Tallied.countsTrue {s : LockSystem} (h : s.Tallied) : s.CountsTrue := by
  intro txnId hquiet
  -- no call is at a stage that says something
  have hnone : ∀ {stage : LockCall → Bool}, (∀ result, stage (.done result) = false) →
      ∀ callId call, s.calls.lookup callId = some (txnId, call) → stage call = false := by
    intro stage hdone callId call hlookup
    cases call with
    | done result => exact hdone result
    | _ => exact absurd rfl (hquiet callId _ hlookup)
  have hzero : ∀ {stage : LockCall → Bool}, (∀ result, stage (.done result) = false) →
      s.callsOf txnId stage = 0 := by
    intro stage hdone
    apply countWhere_eq_zero
    rintro callId ⟨other, call⟩ hlookup
    by_cases heq : other = txnId
    · subst heq
      simp [hnone hdone callId call hlookup]
    · simp [heq]
  have hcounted := h.counted txnId fun callId call hlookup => by
    cases call with
    | done result => simp [LockCall.method]
    | _ => exact absurd rfl (hquiet callId _ hlookup)
  refine ⟨fun n hn => ?_, fun n hn => ?_⟩
  · have hcount := hcounted.graph n hn
    rwa [hzero fun _ => rfl, Nat.add_zero] at hcount
  · have hcount := hcounted.escalation n hn
    rwa [hzero fun _ => rfl, Nat.add_zero] at hcount

/-! ## One step -/

section

variable {s : LockSystem} {txnId actor callId : ℕ} {choice : LockChoice} {call : LockCall}

/-- The next step of a call. -/
def advanced (s : LockSystem) (callId actor : ℕ) (choice : LockChoice) (call : LockCall) :
    LockSystem :=
  { s with
    table := (s.table.step actor choice call).1
    calls := s.calls.insert callId (actor, (s.table.step actor choice call).2) }

/-! ### The calls after a step -/

section

variable {other : ℕ} {call' : LockCall} {request : LockRequest}

theorem of_lookup_advanced
    (hlookup : (s.advanced callId actor choice call).calls.lookup other = some (txnId, call')) :
    (other = callId ∧ txnId = actor ∧ call' = (s.table.step actor choice call).2) ∨
      (other ≠ callId ∧ s.calls.lookup other = some (txnId, call')) := by
  rw [advanced] at hlookup
  by_cases heq : other = callId
  · rw [heq, AList.lookup_insert] at hlookup
    obtain ⟨hactor, hcall⟩ := Prod.mk.inj (Option.some.inj hlookup)
    exact Or.inl ⟨heq, hactor.symm, hcall.symm⟩
  · rw [AList.lookup_insert_ne heq] at hlookup
    exact Or.inr ⟨heq, hlookup⟩

/-- The calls of other transactions stay as they are. -/
theorem lookup_advanced (hlookup : s.calls.lookup callId = some (actor, call))
    (hother : s.calls.lookup other = some (txnId, call')) (hne : txnId ≠ actor)
    (choice : LockChoice) :
    (s.advanced callId actor choice call).calls.lookup other = some (txnId, call') := by
  have hself : other ≠ callId := by
    rintro rfl
    rw [hlookup] at hother
    exact hne (Prod.mk.inj (Option.some.inj hother)).1.symm
  exact (AList.lookup_insert_ne hself).trans hother

theorem fresh_advanced (hfresh : ∀ callId, s.nextCallId ≤ callId → s.calls.lookup callId = none)
    (hlookup : s.calls.lookup callId = some (actor, call)) (choice : LockChoice) (other : ℕ)
    (hle : s.nextCallId ≤ other) :
    (s.advanced callId actor choice call).calls.lookup other = none := by
  have hne : other ≠ callId := by
    rintro rfl
    rw [hfresh other hle] at hlookup
    contradiction
  exact (AList.lookup_insert_ne hne).trans (hfresh other hle)

theorem of_lookup_request
    (hlookup : (s.step (.call actor request)).calls.lookup callId = some (txnId, call)) :
    (callId = s.nextCallId ∧ actor = txnId ∧ request.call = call) ∨
      s.calls.lookup callId = some (txnId, call) := by
  rcases lookup_insert_cases hlookup with ⟨hcallId, heq⟩ | hold
  · exact Or.inl ⟨hcallId, Prod.mk.inj heq⟩
  · exact Or.inr hold

theorem lookup_request (hfresh : ∀ callId, s.nextCallId ≤ callId → s.calls.lookup callId = none)
    (hlookup : s.calls.lookup callId = some (txnId, call)) (actor : ℕ) (request : LockRequest) :
    (s.step (.call actor request)).calls.lookup callId = some (txnId, call) := by
  have hne : callId ≠ s.nextCallId := by
    rintro rfl
    rw [hfresh _ le_rfl] at hlookup
    contradiction
  exact (AList.lookup_insert_ne hne).trans hlookup

theorem fresh_request (hfresh : ∀ callId, s.nextCallId ≤ callId → s.calls.lookup callId = none)
    (actor : ℕ) (request : LockRequest) (callId : ℕ) (hlt : s.nextCallId < callId) :
    (s.step (.call actor request)).calls.lookup callId = none :=
  (AList.lookup_insert_ne hlt.ne').trans (hfresh callId hlt.le)

end

/-! ### The counters after a step -/

theorem callsOf_other (hlookup : s.calls.lookup callId = some (actor, call)) (hne : txnId ≠ actor)
    (choice : LockChoice) (stage : LockCall → Bool) :
    (s.advanced callId actor choice call).callsOf txnId stage = s.callsOf txnId stage := by
  apply countWhere_insert_of_same hlookup
  have hother : (actor == txnId) = false := beq_false_of_ne (Ne.symm hne)
  simp only [hother, Bool.false_and]

theorem callsOf_self (hlookup : s.calls.lookup callId = some (actor, call)) (choice : LockChoice)
    (stage : LockCall → Bool) :
    (s.advanced callId actor choice call).callsOf actor stage + (stage call).toNat =
      s.callsOf actor stage + (stage (s.table.step actor choice call).2).toNat := by
  have hreplace := countWhere_replace hlookup (actor, (s.table.step actor choice call).2)
    fun c => c.1 == actor && stage c.2
  unfold callsOf advanced
  simpa [Bool.toNat, Bool.cond_eq_ite] using hreplace

/-- Another transaction is not concerned. -/
theorem Counted.other (h : s.Counted txnId) (hlookup : s.calls.lookup callId = some (actor, call))
    (hne : txnId ≠ actor) (choice : LockChoice) :
    (s.advanced callId actor choice call).Counted txnId := by
  have hlock : (s.advanced callId actor choice call).table.lockCount txnId =
      s.table.lockCount txnId := by
    rw [advanced, LockTable.lockCount_step, if_neg hne]
  have hkeyLock : (s.advanced callId actor choice call).table.keyLockCount txnId =
      s.table.keyLockCount txnId := by
    rw [advanced, LockTable.keyLockCount_step, if_neg hne]
  have hheld : ((s.advanced callId actor choice call).table.heldKeys txnId).length =
      (s.table.heldKeys txnId).length := by
    apply LockTable.length_heldKeys_congr
    intro key
    rw [advanced, LockTable.modeOf_other hne]
  refine ⟨fun n hn => ?_, fun n hn => ?_, fun hregistered other key hother => ?_⟩
  · rw [callsOf_other hlookup hne, hheld]
    exact h.graph n (hlock ▸ hn)
  · rw [callsOf_other hlookup hne, hheld]
    exact h.escalation n (hkeyLock ▸ hn)
  · rw [hlock, hkeyLock] at hregistered
    rw [advanced, LockTable.modeOf_other hne]
    rcases lookup_insert_cases hother with ⟨-, heq⟩ | hold
    · exact absurd (Prod.mk.inj heq).1 (Ne.symm hne)
    · exact h.upgrades hregistered other key hold

/-- A step of a call that neither registers nor releases. -/
theorem Counted.tallied (h : s.Counted actor)
    (hlookup : s.calls.lookup callId = some (actor, call)) (hreleasing : call.method ≠ some .releaseAll)
    (hregistering : call.method ≠ some .registerTxn) (hnew : s.table.NewGrant actor choice call) :
    (s.advanced callId actor choice call).Counted actor := by
  have hlockAfter : (s.advanced callId actor choice call).table.lockCount actor =
      (s.table.lockCount actor).map (· + call.counts) := by
    rw [advanced, LockTable.lockCount_step, if_pos rfl]
    cases call <;> first | contradiction | simp [LockTable.lockCountAfter, LockCall.counts]
  have hkeyLockAfter : (s.advanced callId actor choice call).table.keyLockCount actor =
      (s.table.keyLockCount actor).map (· + call.records) := by
    rw [advanced, LockTable.keyLockCount_step, if_pos rfl]
    cases call <;> first | contradiction | simp [LockTable.keyLockCountAfter, LockCall.records]
  by_cases hregistered : s.table.lockCount actor ≠ none ∨ s.table.keyLockCount actor ≠ none
  · have hupgrade : ∀ key, call = .upgradeWait key → s.table.modeOf key actor ≠ none := by
      rintro key rfl
      exact h.upgrades hregistered callId key hlookup
    -- what one step adds to the held keys its calls have still to count
    obtain ⟨n, htallied⟩ := LockTable.exists_tallied hreleasing hregistering hnew hupgrade
    have huncounted := callsOf_self hlookup choice LockCall.uncounted
    have hunrecorded := callsOf_self hlookup choice LockCall.unrecorded
    have hcalls := htallied.uncounted
    have hcalls' := htallied.unrecorded
    refine ⟨fun count hcount => ?_, fun count hcount => ?_, fun _ other key hother => ?_⟩
    · rw [hlockAfter] at hcount
      obtain ⟨count, hold, rfl⟩ := Option.map_eq_some_iff.mp hcount
      have hgraph := h.graph count hold
      have hheld : ((s.advanced callId actor choice call).table.heldKeys actor).length =
          (s.table.heldKeys actor).length + n := htallied.held
      omega
    · rw [hkeyLockAfter] at hcount
      obtain ⟨count, hold, rfl⟩ := Option.map_eq_some_iff.mp hcount
      have hescalation := h.escalation count hold
      have hheld : ((s.advanced callId actor choice call).table.heldKeys actor).length =
          (s.table.heldKeys actor).length + n := htallied.held
      omega
    -- no step but a release takes the mode of an upgrade away
    · apply LockTable.modeOf_ne_none_step hreleasing
      rcases lookup_insert_cases hother with ⟨-, heq⟩ | hold
      · rcases LockTable.of_step_upgradeWait (Prod.mk.inj heq).2 with rfl | ⟨-, hheld⟩
        · exact hupgrade key rfl
        · exact hheld
      · exact h.upgrades hregistered other key hold
  · -- nobody counts the locks of a transaction that is not registered
    push Not at hregistered
    obtain ⟨hlock, hkeyLock⟩ := hregistered
    rw [hlock, Option.map_none] at hlockAfter
    rw [hkeyLock, Option.map_none] at hkeyLockAfter
    refine ⟨fun n hn => ?_, fun n hn => ?_, fun hregistered => ?_⟩
    · rw [hlockAfter] at hn
      contradiction
    · rw [hkeyLockAfter] at hn
      contradiction
    · rw [hlockAfter, hkeyLockAfter] at hregistered
      simp at hregistered

/-- Nobody else of the transaction is at a stage that says something. -/
theorem Alone.stage_eq {stage : LockCall → Bool} (hdone : ∀ result, stage (.done result) = false)
    (halone : s.Alone actor callId) {other : ℕ} {call' : LockCall}
    (hother : s.calls.lookup other = some (actor, call')) (hne : other ≠ callId) :
    stage call' = false := by
  have hresult := (halone ⟨other, (actor, call')⟩ (AList.mem_lookup_iff.mp hother) rfl).resolve_left hne
  cases call' with
  | done result => exact hdone result
  | _ => exact absurd rfl hresult

/-- A registration of a transaction that holds nothing and does nothing else. -/
theorem Counted.registers (h : s.Counted actor)
    (hlookup : s.calls.lookup callId = some (actor, call))
    (hregistering : call.method = some .registerTxn) (hnone : s.table.heldKeys actor = [])
    (halone : s.Alone actor callId) : (s.advanced callId actor choice call).Counted actor := by
  -- the transaction has no other call, so no stage is counted but this one
  have hnothing : ∀ {stage : LockCall → Bool}, (∀ result, stage (.done result) = false) →
      stage call = false → s.callsOf actor stage = 0 := by
    intro stage hdone hcall
    apply countWhere_eq_zero
    rintro other ⟨txnId, call'⟩ hother
    by_cases heq : txnId = actor
    · subst heq
      by_cases hself : other = callId
      · rw [hself, hlookup] at hother
        rw [← (Prod.mk.inj (Option.some.inj hother)).2, hcall, Bool.and_false]
      · rw [halone.stage_eq hdone hother hself, Bool.and_false]
    · simp [heq]
  have hzero : (s.table.heldKeys actor).length = 0 := by rw [hnone, List.length_nil]
  have hgraph := h.graph
  have hescalation := h.escalation
  have huncounted := callsOf_self hlookup choice LockCall.uncounted
  have hunrecorded := callsOf_self hlookup choice LockCall.unrecorded
  -- registering begins before and ends after all that is counted
  have hstages : call.uncounted = false ∧ call.unrecorded = false ∧
      (s.table.step actor choice call).2.uncounted = false ∧
        (s.table.step actor choice call).2.unrecorded = false ∧
          s.table.effect actor choice call = .none ∧
            ∀ key, (s.table.step actor choice call).2 ≠ .upgradeWait key := by
    rcases LockCall.of_registers hregistering with ⟨startTs, priority, rfl⟩ | rfl <;>
      exact ⟨rfl, rfl, rfl, rfl, rfl, fun _ => LockCall.noConfusion⟩
  obtain ⟨hstage, hstage', hnext, hnext', heffect, hupgrade⟩ := hstages
  rw [hnothing (fun _ => rfl) hstage] at huncounted hgraph
  rw [hnothing (fun _ => rfl) hstage'] at hunrecorded hescalation
  rw [hstage, hnext] at huncounted
  rw [hstage', hnext'] at hunrecorded
  rw [hzero] at hgraph hescalation
  have hheld : ((s.advanced callId actor choice call).table.heldKeys actor).length = 0 :=
    (LockTable.length_heldKeys_of_effect (by simp [heffect]) (by simp [heffect])).trans hzero
  refine ⟨fun n hn => ?_, fun n hn => ?_, fun _ other key hother => ?_⟩
  · have hn : n ∈ (s.table.step actor choice call).1.lockCount actor := hn
    rw [LockTable.lockCount_step, if_pos rfl] at hn
    -- both counters start at zero
    have hcount : n = 0 := by
      rcases LockCall.of_registers hregistering with ⟨startTs, priority, rfl⟩ | rfl
      · exact (Option.some.inj hn).symm
      · exact hgraph n hn
    rw [hheld, hcount, Nat.zero_add]
    exact huncounted
  · have hn : n ∈ (s.table.step actor choice call).1.keyLockCount actor := hn
    rw [LockTable.keyLockCount_step, if_pos rfl] at hn
    have hcount : n = 0 := by
      rcases LockCall.of_registers hregistering with ⟨startTs, priority, rfl⟩ | rfl
      · exact hescalation n hn
      · exact (Option.some.inj hn).symm
    rw [hheld, hcount, Nat.zero_add]
    exact hunrecorded
  · rcases lookup_insert_cases hother with ⟨-, heq⟩ | hold
    · exact absurd (Prod.mk.inj heq).2 (hupgrade key)
    · have hself : other ≠ callId := by
        rintro rfl
        rw [hlookup] at hold
        rw [(Prod.mk.inj (Option.some.inj hold)).2] at hregistering
        simp [LockCall.method] at hregistering
      exact absurd rfl ((halone ⟨other, (actor, .upgradeWait key)⟩
        (AList.mem_lookup_iff.mp hold) rfl).resolve_left hself)

/-- At the end of a release the transaction is not registered. -/
theorem counted_released (callId : ℕ) (choice : LockChoice)
    (hunregistered : s.table.lockCount actor = none) :
    (s.advanced callId actor choice .unregisterEscalation).Counted actor := by
  have hlock : (s.advanced callId actor choice .unregisterEscalation).table.lockCount actor =
      none := by
    rw [advanced, LockTable.lockCount_step, if_pos rfl]
    exact hunregistered
  have hkeyLock : (s.advanced callId actor choice .unregisterEscalation).table.keyLockCount actor =
      none := by
    rw [advanced, LockTable.keyLockCount_step, if_pos rfl]
    rfl
  refine ⟨fun n hn => ?_, fun n hn => ?_, fun hregistered => ?_⟩
  · rw [hlock] at hn
    contradiction
  · rw [hkeyLock] at hn
    contradiction
  · simp [hlock, hkeyLock] at hregistered

theorem Tallied.advance (h : s.Tallied) (hlookup : s.calls.lookup callId = some (actor, call))
    (hnew : s.table.NewGrant actor choice call)
    (hregisters : call.method = some .registerTxn →
      s.table.heldKeys actor = [] ∧ s.Alone actor callId) :
    (s.advanced callId actor choice call).Tallied where
  fresh := fresh_advanced h.fresh hlookup choice
  counted := by
    intro txnId hnot'
    by_cases hactor : txnId = actor
    · subst hactor
      have hreturns := hnot' callId _ (AList.lookup_insert _)
      by_cases hreleasing : call.method = some .releaseAll
      · obtain rfl := LockTable.of_release_returns hreleasing hreturns
        exact counted_released callId choice (h.unregistered txnId callId hlookup)
      · -- no other release is under way either
        have hnot : s.NotReleasing txnId := by
          intro other call' hother
          by_cases heq : other = callId
          · rw [heq, hlookup] at hother
            rw [← (Prod.mk.inj (Option.some.inj hother)).2]
            exact hreleasing
          · exact hnot' other call' ((AList.lookup_insert_ne heq).trans hother)
        by_cases hregistering : call.method = some .registerTxn
        · obtain ⟨hnone, halone⟩ := hregisters hregistering
          exact (h.counted txnId hnot).registers hlookup hregistering hnone halone
        · exact (h.counted txnId hnot).tallied hlookup hreleasing hregistering hnew
    · have hnot : s.NotReleasing txnId := fun other call' hother =>
        hnot' other call' (lookup_advanced hlookup hother hactor choice)
      exact (h.counted txnId hnot).other hlookup hactor choice
  unregistered := by
    intro txnId other hother
    show (s.table.step actor choice call).1.lockCount txnId = none
    rw [LockTable.lockCount_step]
    rcases of_lookup_advanced hother with ⟨-, rfl, hcall⟩ | ⟨-, hold⟩
    · obtain rfl := LockTable.of_step_unregisterEscalation hcall.symm
      rw [if_pos rfl]
      rfl
    · have hnone := h.unregistered txnId other hold
      split
      · next heq =>
          subst heq
          rw [hnone]
          cases call with
          | registerGraph startTs priority =>
              -- it would not be alone
              have hself : other ≠ callId := by
                rintro rfl
                rw [hlookup] at hold
                cases hold
              exact absurd rfl (((hregisters rfl).2 ⟨other, (txnId, .unregisterEscalation)⟩
                (AList.mem_lookup_iff.mp hold) rfl).resolve_left hself)
          | _ => rfl
      · exact hnone

theorem Tallied.request (h : s.Tallied) (txnId : ℕ) (request : LockRequest) :
    (s.step (.call txnId request)).Tallied := by
  have hstages : request.call.uncounted = false ∧ request.call.unrecorded = false ∧
      (∀ key, request.call ≠ .upgradeWait key) ∧ request.call ≠ .unregisterEscalation := by
    cases request <;>
      exact ⟨rfl, rfl, fun _ => LockCall.noConfusion, LockCall.noConfusion⟩
  obtain ⟨huncounted, hunrecorded, hupgrade, hunregister⟩ := hstages
  have hcallsOf : ∀ {stage : LockCall → Bool}, stage request.call = false → ∀ other,
      (s.step (.call txnId request)).callsOf other stage = s.callsOf other stage := by
    intro stage hstage other
    have hinsert := countWhere_insert_new (h.fresh _ le_rfl) (txnId, request.call)
      fun c => c.1 == other && stage c.2
    simp only [hstage, Bool.and_false] at hinsert
    exact hinsert
  refine ⟨fresh_request h.fresh txnId request, fun other hnot => ?_,
    fun other callId hlookup => ?_⟩
  · have hcounted := h.counted other fun callId call hlookup =>
      hnot callId call (lookup_request h.fresh hlookup txnId request)
    refine ⟨fun n hn => ?_, fun n hn => ?_, fun hregistered callId key hlookup => ?_⟩
    · rw [hcallsOf huncounted]
      exact hcounted.graph n hn
    · rw [hcallsOf hunrecorded]
      exact hcounted.escalation n hn
    · rcases of_lookup_request hlookup with ⟨-, -, heq⟩ | hold
      · exact absurd heq (hupgrade key)
      · exact hcounted.upgrades hregistered callId key hold
  · rcases of_lookup_request hlookup with ⟨-, -, heq⟩ | hold
    · exact absurd heq hunregister
    · exact h.unregistered other callId hold

theorem Tallied.step (h : s.Tallied) {action : LockStep} (hready : s.ReadyStep action) :
    (s.step action).Tallied := by
  cases action with
  | call txnId request => exact h.request txnId request
  | advance callId choice =>
      rw [LockSystem.step]
      cases hlookup : s.calls.lookup callId with
      | none => exact h
      | some c =>
          obtain ⟨hnew, hregisters⟩ := hready c hlookup
          exact h.advance hlookup hnew hregisters

end

/-- In every run in which locks are granted for new keys only, and transactions are registered
before they do anything, the counters are true. -/
theorem countsTrue_run (config : LockConfig) (steps : List LockStep)
    (hready : Run.Along step ReadyStep (init config) steps) :
    (Run.run step (init config) steps).CountsTrue := by
  have htallied := hready.invariant Tallied (fun s action h hready => h.step hready)
    (tallied_init config)
  exact htallied.countsTrue

/-- The first transaction locks a key and upgrades it, the second is refused the key and gets
another one, and the first ends. -/
def countedRun : List LockStep :=
  (List.range 2).flatMap (fun i => called (i + 1) (.registerTxn i 0) i 2) ++
    called 1 (.lockKey [107] .s) 2 6 ++ called 1 (.upgradeLock [107]) 3 3 ++
    called 2 (.lockKey [107] .x) 4 6 ++ [LockStep.advance 4 .timeout] ++ advances 4 1 ++
    called 2 (.lockKey [108] .x) 5 6 ++
    called 1 .releaseAll 6 1 ++ [LockStep.advance 6 (.visit [107]), .advance 6 (.visit [108])] ++
      advances 6 5

theorem countsTrue_countedRun :
    (Run.run step (init LockConfig.default) countedRun).CountsTrue :=
  countsTrue_run LockConfig.default countedRun (by decide +kernel)

/-- A transaction locks a key twice. -/
def lockedTwice : List LockStep :=
  called 1 (.registerTxn 0 0) 0 2 ++ called 1 (.lockKey [107] .x) 1 6 ++
    called 1 (.lockKey [107] .x) 2 6

theorem not_countsTrue_lockedTwice :
    ¬ (Run.run step (init LockConfig.default) lockedTwice).CountsTrue := by
  intro h
  have hdone : ∀ e ∈ (Run.run step (init LockConfig.default) lockedTwice).calls.entries,
      e.2.2.result ≠ none := by decide +kernel
  have hcounts := (h 1 fun callId call hlookup =>
    hdone ⟨callId, (1, call)⟩ (AList.mem_lookup_iff.mp hlookup)).1 2 (by decide +kernel)
  exact absurd hcounts (by decide +kernel)

end LockSystem
end Crabstash

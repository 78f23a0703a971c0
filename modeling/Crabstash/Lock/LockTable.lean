import Crabstash.Lock.LockEntry
import Crabstash.Lock.RangeLock

/-!
# The lock table

`LockTable` of `lock_table.rs`, with the `WaitForGraph` of `deadlock.rs` and the
`EscalationState` of `escalation.rs`.  Every method is a sequence of steps on a shared
table: `LockCall` says how far a call has come, and `LockTable.step` is its next step.
A step is what happens under one lock.

Three things are not decided by the table and come with a step (`LockChoice`): that a
waiter has reached its deadline, which key an iteration over the key locks comes to next,
and that the iteration is over.  Such an iteration sees the keys that were there when it
began, and may see others.

The deadlock detector is no part of it: it names victims, and nothing receives their names.
-/

namespace Crabstash

/-! ## The wait-for graph -/

/-- What the graph knows of a registered transaction; the detector chooses its victim by it. -/
structure TxnInfo where
  startTs : ℕ
  lockCount : ℕ
  priority : ℕ
  deriving DecidableEq, Repr

/-- Whom each transaction waits for, and who is registered. -/
structure WaitForGraph where
  edges : HashMap ℕ (List ℕ)
  txnInfo : HashMap ℕ TxnInfo
  deriving DecidableEq

namespace WaitForGraph

/-- `WaitForGraph::new`. -/
def new : WaitForGraph := { edges := ∅, txnInfo := ∅ }

/-- `register_txn`: an entry without locks, which replaces an old one. -/
def registerTxn (g : WaitForGraph) (txnId startTs priority : ℕ) : WaitForGraph :=
  { g with txnInfo := g.txnInfo.insert txnId { startTs, lockCount := 0, priority } }

/-- `unregister_txn`: the transaction leaves `txn_info`, and the edges that start or end at it
go. -/
def unregisterTxn (g : WaitForGraph) (txnId : ℕ) : WaitForGraph :=
  { edges := ⟨(g.edges.erase txnId).entries.map fun e => ⟨e.1, e.2.filter (· != txnId)⟩, by
      have hkeys := (g.edges.erase txnId).nodupKeys
      unfold List.NodupKeys List.keys at hkeys ⊢
      rw [List.map_map]
      exact hkeys⟩
    txnInfo := g.txnInfo.erase txnId }

/-- `add_wait_edge`; nobody waits for itself. -/
def addWaitEdge (g : WaitForGraph) (waiter holder : ℕ) : WaitForGraph :=
  if waiter = holder then g
  else { g with edges := g.edges.insert waiter (((g.edges.lookup waiter).getD []).insert holder) }

/-- `remove_wait_edge`; a waiter without holders leaves the map. -/
def removeWaitEdge (g : WaitForGraph) (waiter holder : ℕ) : WaitForGraph :=
  match g.edges.lookup waiter with
  | none => g
  | some holders =>
      let holders := holders.filter (· != holder)
      if holders.isEmpty then { g with edges := g.edges.erase waiter }
      else { g with edges := g.edges.insert waiter holders }

/-- `remove_all_waits`: the edges that start at the waiter, not those that end there. -/
def removeAllWaits (g : WaitForGraph) (waiter : ℕ) : WaitForGraph :=
  { g with edges := g.edges.erase waiter }

/-- `increment_lock_count`; a transaction that is not registered is not counted. -/
def incrementLockCount (g : WaitForGraph) (txnId : ℕ) : WaitForGraph :=
  match g.txnInfo.lookup txnId with
  | none => g
  | some info =>
      { g with txnInfo := g.txnInfo.insert txnId { info with lockCount := info.lockCount + 1 } }

end WaitForGraph

/-! ## Escalation -/

/-- The numbers of key locks from which a transaction is warned and escalated. -/
structure EscalationConfig where
  warningThreshold : ℕ
  autoEscalateThreshold : ℕ
  emergencyThreshold : ℕ
  deriving DecidableEq, Repr

/-- `EscalationConfig::default`. -/
def EscalationConfig.default : EscalationConfig :=
  { warningThreshold := 1000, autoEscalateThreshold := 5000, emergencyThreshold := 10000 }

/-- What `check_escalation` asks for. -/
inductive EscalationAction where
  | none
  | warn
  | escalate
  | forceEscalate
  deriving DecidableEq, Repr

/-- `check_escalation`: the largest threshold that the count has reached decides. -/
def checkEscalation (count : ℕ) (config : EscalationConfig) : EscalationAction :=
  if count ≥ config.emergencyThreshold then .forceEscalate
  else if count ≥ config.autoEscalateThreshold then .escalate
  else if count ≥ config.warningThreshold then .warn
  else .none

/-- The key locks that a transaction has been counted for, and what has come of it. -/
structure EscalationState where
  keyLockCount : ℕ
  lockedKeys : List Bytes
  escalated : Bool
  warningLogged : Bool
  deriving DecidableEq, Repr

namespace EscalationState

/-- `EscalationState::new`. -/
def new : EscalationState :=
  { keyLockCount := 0, lockedKeys := [], escalated := false, warningLogged := false }

/-- `record_key_lock`: the key is counted whether or not it was counted before. -/
def recordKeyLock (state : EscalationState) (key : Bytes) : EscalationState :=
  { state with keyLockCount := state.keyLockCount + 1, lockedKeys := state.lockedKeys ++ [key] }

/-- `compute_bounding_range`: from the least locked key to the greatest, both included. -/
def computeBoundingRange (state : EscalationState) : Option (Bound × Bound) :=
  match state.lockedKeys.min?, state.lockedKeys.max? with
  | some minKey, some maxKey => some (.included minKey, .included maxKey)
  | _, _ => none

/-- `handle_escalation_action`: whether a range lock is to be taken. -/
def handleEscalationAction (state : EscalationState) :
    EscalationAction → Bool × EscalationState
  | .none => (false, state)
  | .warn => (false, { state with warningLogged := true })
  | .escalate => (!state.escalated, { state with escalated := true })
  | .forceEscalate => (!state.escalated, { state with escalated := true })

end EscalationState

/-! ## The table -/

/-- The part of `LockConfig` that the calls of the table read. -/
structure LockConfig where
  enableRangeLocks : Bool
  escalation : EscalationConfig
  deriving DecidableEq, Repr

/-- `LockConfig::default`. -/
def LockConfig.default : LockConfig :=
  { enableRangeLocks := true, escalation := EscalationConfig.default }

/-- The lock table: an entry for each key ever locked, the range locks, the wait-for graph and
what is counted for escalation. -/
structure LockTable where
  keyLocks : HashMap Bytes LockEntry
  rangeLocks : IntervalTree
  waiterGraph : WaitForGraph
  escalationState : HashMap ℕ EscalationState
  config : LockConfig
  deriving DecidableEq

/-- How far a call has come, with the values of its local variables.  An `escalating` range
lock is the one of `record_lock_acquired`, whose result is thrown away. -/
inductive LockCall where
  | registerGraph (startTs priority : ℕ)
  | registerEscalation
  | keyRange (key : Bytes) (mode : LockMode)
  | keyEntry (key : Bytes) (mode : LockMode)
  | keyTry (key : Bytes) (mode : LockMode)
  | keyHolders (key : Bytes) (mode : LockMode)
  | keyEdges (key : Bytes) (mode : LockMode) (holders : List ℕ)
  | keyAcquire (key : Bytes) (mode : LockMode) (holders : List ℕ)
  | keyWait (key : Bytes) (mode : LockMode) (holders : List ℕ)
  | keyUnwait (key : Bytes) (holders : List ℕ) (result : Except LockError Unit)
  | keyRecord (key : Bytes)
  | keyEscalate
  | keyCount
  | rangeCheck (start last : Bound) (mode : LockMode) (escalating : Bool)
  | rangeIter (start last : Bound) (mode : LockMode) (escalating : Bool)
  | rangeScan (start last : Bound) (mode : LockMode) (escalating : Bool) (todo : List Bytes)
  | rangeInsert (start last : Bound) (mode : LockMode) (escalating : Bool)
  | upgradeGet (key : Bytes)
  | upgradeCheck (key : Bytes)
  | upgradeWait (key : Bytes)
  | releaseIter
  | releaseKeys (todo : List Bytes)
  | releaseRanges
  | releaseWaits
  | unregisterGraph
  | unregisterEscalation
  | done (result : Except LockError Unit)
  deriving DecidableEq

/-- What a step leaves to chance: nothing, the clock of a waiting caller, or which key a walk
over `key_locks` meets next. -/
inductive LockChoice where
  | next
  | timeout
  | visit (key : Bytes)
  deriving DecidableEq, Repr

namespace LockTable

/-- `LockTable::new`. -/
def new (config : LockConfig) : LockTable :=
  { keyLocks := ∅, rangeLocks := IntervalTree.new, waiterGraph := WaitForGraph.new
    escalationState := ∅, config }

/-- The entry of a key; a key without one has no holders. -/
def entry (t : LockTable) (key : Bytes) : LockEntry := (t.keyLocks.lookup key).getD LockEntry.new

/-- The table after a change of one key's entry. -/
def setEntry (t : LockTable) (key : Bytes) (e : LockEntry) : LockTable :=
  { t with keyLocks := t.keyLocks.insert key e }

/-- The range check of `lock_key`. -/
def keyFree (t : LockTable) (txnId : ℕ) (key : Bytes) (mode : LockMode) : Bool :=
  (t.rangeLocks.findContainingKey key).all fun e =>
    e.txnId == txnId || mode.isCompatible e.mode

/-- The range check of `lock_range`. -/
def rangeFree (t : LockTable) (txnId : ℕ) (start last : Bound) (mode : LockMode) : Bool :=
  (t.rangeLocks.findOverlapping start last).all fun e =>
    e.txnId == txnId || mode.isCompatible e.mode

/-- What `lock_range` looks for in the entry of one key. -/
def holdersFree (t : LockTable) (txnId : ℕ) (start last : Bound) (mode : LockMode)
    (key : Bytes) : Bool :=
  !inRange key (start, last) || (t.entry key).isCompatibleWithHolders txnId mode

/-- A lock on a range has been taken or not. -/
def rangeDone (escalating : Bool) (result : Except LockError Unit) : LockCall :=
  if escalating then .keyCount else .done result

/-- The next step of a call of the transaction. -/
def step (t : LockTable) (txnId : ℕ) (choice : LockChoice) : LockCall → LockTable × LockCall
  | .registerGraph startTs priority =>
      ({ t with waiterGraph := t.waiterGraph.registerTxn txnId startTs priority },
        .registerEscalation)
  | .registerEscalation =>
      ({ t with escalationState := t.escalationState.insert txnId EscalationState.new },
        .done (.ok ()))
  | .keyRange key mode =>
      if t.config.enableRangeLocks && !t.keyFree txnId key mode then
        (t, .done (.error .rangeConflict))
      else (t, .keyEntry key mode)
  | .keyEntry key mode =>
      match t.keyLocks.lookup key with
      | some _ => (t, .keyTry key mode)
      | none => (t.setEntry key LockEntry.new, .keyTry key mode)
  | .keyTry key mode =>
      match (t.entry key).tryAcquire txnId mode with
      | (true, e) => (t.setEntry key e, .keyRecord key)
      | (false, _) => (t, .keyHolders key mode)
  | .keyHolders key mode => (t, .keyEdges key mode ((t.entry key).getHolders.map Prod.fst))
  | .keyEdges key mode holders =>
      ({ t with
        waiterGraph := holders.foldl (fun g holder => g.addWaitEdge txnId holder) t.waiterGraph },
        .keyAcquire key mode holders)
  | .keyAcquire key mode holders =>
      match (t.entry key).tryAcquire txnId mode with
      | (true, e) => (t.setEntry key e, .keyUnwait key holders (.ok ()))
      | (false, _) => (t, .keyWait key mode holders)
  | .keyWait key mode holders =>
      if choice = .timeout then (t, .keyUnwait key holders (.error .timeout))
      else
        match (t.entry key).acquireTurn txnId mode with
        | some e => (t.setEntry key e, .keyUnwait key holders (.ok ()))
        | none => (t, .keyWait key mode holders)
  | .keyUnwait key holders result =>
      ({ t with
        waiterGraph :=
          holders.foldl (fun g holder => g.removeWaitEdge txnId holder) t.waiterGraph },
        match result with
        | .ok () => .keyRecord key
        | .error e => .done (.error e))
  | .keyRecord key =>
      match t.escalationState.lookup txnId with
      | none => (t, .keyCount)
      | some state =>
          ({ t with
            escalationState := t.escalationState.insert txnId (state.recordKeyLock key) },
            .keyEscalate)
  | .keyEscalate =>
      match t.escalationState.lookup txnId with
      | none => (t, .keyCount)
      | some state =>
          let action := checkEscalation state.keyLockCount t.config.escalation
          let (escalates, state) := state.handleEscalationAction action
          let t := { t with escalationState := t.escalationState.insert txnId state }
          match escalates, state.computeBoundingRange with
          | true, some (start, last) => (t, .rangeCheck start last .x true)
          | _, _ => (t, .keyCount)
  | .keyCount =>
      ({ t with waiterGraph := t.waiterGraph.incrementLockCount txnId }, .done (.ok ()))
  | .rangeCheck start last mode escalating =>
      if !t.config.enableRangeLocks then (t, rangeDone escalating (.error .rangeLocksDisabled))
      else if !t.rangeFree txnId start last mode then
        (t, rangeDone escalating (.error .rangeConflict))
      else (t, .rangeIter start last mode escalating)
  | .rangeIter start last mode escalating =>
      (t, .rangeScan start last mode escalating t.keyLocks.keys)
  | .rangeScan start last mode escalating todo =>
      match choice with
      | .visit key =>
          if !t.holdersFree txnId start last mode key then
            (t, rangeDone escalating (.error .rangeConflict))
          else (t, .rangeScan start last mode escalating (todo.erase key))
      | _ =>
          if todo.isEmpty then (t, .rangeInsert start last mode escalating)
          else (t, .rangeScan start last mode escalating todo)
  | .rangeInsert start last mode escalating =>
      ({ t with rangeLocks := t.rangeLocks.insert { txnId, mode, start, last } },
        rangeDone escalating (.ok ()))
  | .upgradeGet key =>
      match t.keyLocks.lookup key with
      | none => (t, .done (.error .notHeld))
      | some _ => (t, .upgradeCheck key)
  | .upgradeCheck key =>
      match (t.entry key).checkUpgrade txnId .x with
      | .error e => (t, .done (.error e))
      | .ok true => (t, .done (.ok ()))
      | .ok false => (t, .upgradeWait key)
  | .upgradeWait key =>
      if choice = .timeout then (t, .done (.error .timeout))
      else
        match (t.entry key).upgradeTurn txnId .x with
        | some e => (t.setEntry key e, .done (.ok ()))
        | none => (t, .upgradeWait key)
  | .releaseIter => (t, .releaseKeys t.keyLocks.keys)
  | .releaseKeys todo =>
      match choice with
      | .visit key =>
          match t.keyLocks.lookup key with
          | none => (t, .releaseKeys todo)
          | some e => (t.setEntry key (e.release txnId), .releaseKeys (todo.erase key))
      | _ => if todo.isEmpty then (t, .releaseRanges) else (t, .releaseKeys todo)
  | .releaseRanges =>
      ({ t with rangeLocks := t.rangeLocks.removeByTxn txnId }, .releaseWaits)
  | .releaseWaits =>
      ({ t with waiterGraph := t.waiterGraph.removeAllWaits txnId }, .unregisterGraph)
  | .unregisterGraph =>
      ({ t with waiterGraph := t.waiterGraph.unregisterTxn txnId }, .unregisterEscalation)
  | .unregisterEscalation =>
      ({ t with escalationState := t.escalationState.erase txnId }, .done (.ok ()))
  | .done result => (t, .done result)

/-! ## What a step does to the locks -/

end LockTable

/-- The change of a step to the locks themselves. -/
inductive LockEffect where
  | none
  | grant (key : Bytes) (mode : LockMode)
  | insertRange (e : RangeLockEntry)
  | release (key : Bytes)
  | removeRanges
  deriving DecidableEq

namespace LockTable

/-- The mode in which a transaction holds the entry of a key. -/
def modeOf (t : LockTable) (key : Bytes) (txnId : ℕ) : Option LockMode := (t.entry key).getMode txnId

/-- A turn that is granted. -/
def grantOn (t : LockTable) (txnId : ℕ) (key : Bytes) (mode : LockMode) : LockEffect :=
  if (t.entry key).isCompatibleWithHolders txnId mode then .grant key mode else .none

/-- What a critical section does to the locks: the grant of a key, the insertion of a range, or
the removal of what a transaction holds. -/
def effect (t : LockTable) (txnId : ℕ) (choice : LockChoice) : LockCall → LockEffect
  | .keyTry key mode =>
      if (t.entry key).keeps txnId mode then .none else t.grantOn txnId key mode
  | .keyAcquire key mode _ =>
      if (t.entry key).keeps txnId mode then .none else t.grantOn txnId key mode
  | .keyWait key mode _ => if choice = .timeout then .none else t.grantOn txnId key mode
  | .upgradeWait key => if choice = .timeout then .none else t.grantOn txnId key .x
  | .rangeInsert start last mode _ => .insertRange { txnId, mode, start, last }
  | .releaseKeys _ =>
      match choice with
      | .visit key => .release key
      | _ => .none
  | .releaseRanges => .removeRanges
  | _ => .none

theorem entry_setEntry (t : LockTable) (key key' : Bytes) (e : LockEntry) :
    (t.setEntry key e).entry key' = if key' = key then e else t.entry key' := by
  unfold entry setEntry
  split
  · next heq => rw [heq, AList.lookup_insert, Option.getD_some]
  · next hne => rw [AList.lookup_insert_ne hne]

theorem setEntry_entry (t : LockTable) (key key' : Bytes) :
    (t.setEntry key (t.entry key)).entry key' = t.entry key' := by
  rw [entry_setEntry]
  split
  · next heq => rw [heq]
  · rfl

/-- A call only ever has its own transaction hold the entries, or release them. -/
def entryAfter (t : LockTable) (txnId : ℕ) (key' : Bytes) : LockEffect → LockEntry
  | .grant key mode => if key' = key then (t.entry key).insert txnId mode else t.entry key'
  | .release key => if key' = key then (t.entry key).release txnId else t.entry key'
  | _ => t.entry key'

/-- `range_locks` after the critical section. -/
def rangesAfter (t : LockTable) (txnId : ℕ) : LockEffect → IntervalTree
  | .insertRange e => t.rangeLocks.insert e
  | .removeRanges => t.rangeLocks.removeByTxn txnId
  | _ => t.rangeLocks

/-- `waiter_graph` after the critical section. -/
def graphAfter (t : LockTable) (txnId : ℕ) : LockCall → WaitForGraph
  | .registerGraph startTs priority => t.waiterGraph.registerTxn txnId startTs priority
  | .keyEdges _ _ holders =>
      holders.foldl (fun g holder => g.addWaitEdge txnId holder) t.waiterGraph
  | .keyUnwait _ holders _ =>
      holders.foldl (fun g holder => g.removeWaitEdge txnId holder) t.waiterGraph
  | .keyCount => t.waiterGraph.incrementLockCount txnId
  | .releaseWaits => t.waiterGraph.removeAllWaits txnId
  | .unregisterGraph => t.waiterGraph.unregisterTxn txnId
  | _ => t.waiterGraph

/-- The entries after an attempt on one of them, whatever the call goes on with. -/
theorem entry_tryAcquire (t : LockTable) (txnId : ℕ) (key key' : Bytes) (mode : LockMode)
    (taken refused : LockCall) :
    (match (t.entry key).tryAcquire txnId mode with
      | (true, e) => (t.setEntry key e, taken)
      | (false, _) => (t, refused)).1.entry key' =
      t.entryAfter txnId key'
        (if (t.entry key).keeps txnId mode then .none else t.grantOn txnId key mode) := by
  rcases (t.entry key).tryAcquire_cases txnId mode with
    ⟨hkeeps, htry⟩ | ⟨hkeeps, hcompatible, htry⟩ | ⟨hkeeps, hcompatible, htry⟩
  · rw [htry]
    simp [hkeeps, entryAfter, setEntry_entry]
  · rw [htry]
    simp [hkeeps, grantOn, hcompatible, entryAfter, entry_setEntry]
  · rw [htry]
    simp [hkeeps, grantOn, hcompatible, entryAfter]

/-- The entries after a step. -/
theorem entry_step (t : LockTable) (txnId : ℕ) (choice : LockChoice) (call : LockCall)
    (key' : Bytes) :
    (t.step txnId choice call).1.entry key' =
      t.entryAfter txnId key' (t.effect txnId choice call) := by
  cases call with
  | keyEntry key mode =>
      rw [step]
      split
      · rfl
      · next hnone =>
          rw [entry_setEntry]
          split
          · next heq =>
              subst heq
              simp [effect, entryAfter, entry, hnone]
          · rfl
  | keyTry key mode =>
      rw [step, effect]
      exact t.entry_tryAcquire txnId key key' mode _ _
  | keyAcquire key mode holders =>
      rw [step, effect]
      exact t.entry_tryAcquire txnId key key' mode _ _
  | keyWait key mode holders =>
      rw [step, effect]
      split
      · rfl
      · unfold LockEntry.acquireTurn grantOn
        cases (t.entry key).isCompatibleWithHolders txnId mode with
        | true => simp [entryAfter, entry_setEntry]
        | false => simp [entryAfter]
  | upgradeWait key =>
      rw [step, effect, LockEntry.upgradeTurn_eq]
      split
      · rfl
      · unfold LockEntry.acquireTurn grantOn
        cases (t.entry key).isCompatibleWithHolders txnId .x with
        | true => simp [entryAfter, entry_setEntry]
        | false => simp [entryAfter]
  | releaseKeys todo =>
      cases choice with
      | visit key =>
          rw [step]
          cases hlookup : t.keyLocks.lookup key with
          | none =>
              -- nobody holds the entry of a key that has none
              simp only [effect, entryAfter]
              split
              · next heq =>
                  rw [heq, entry, hlookup]
                  rfl
              · rfl
          | some e =>
              have hentry : t.entry key = e := by rw [entry, hlookup, Option.getD_some]
              simp only [effect, entryAfter, hentry]
              exact entry_setEntry t key key' _
      | next => simp only [step]; split <;> rfl
      | timeout => simp only [step]; split <;> rfl
  | keyRange key mode => rw [step]; split <;> rfl
  | keyRecord key => rw [step]; split <;> rfl
  | keyEscalate =>
      rw [step]
      split
      · rfl
      · simp only
        split <;> rfl
  | rangeCheck start last mode escalating =>
      rw [step]
      split
      · rfl
      · split <;> rfl
  | rangeScan start last mode escalating todo =>
      cases choice <;> simp only [step] <;> split <;> rfl
  | upgradeGet key => rw [step]; split <;> rfl
  | upgradeCheck key => rw [step]; split <;> rfl
  | _ => rfl

/-- The parts of the table after a step: the range locks change with the effect only, the graph
with the call only, and no escalation state but that of the transaction. -/
theorem step_parts (t : LockTable) (txnId : ℕ) (choice : LockChoice) (call : LockCall) :
    ∃ keyLocks escalationState,
      (∀ txnId', txnId' ≠ txnId →
        escalationState.lookup txnId' = t.escalationState.lookup txnId') ∧
      (t.step txnId choice call).1 = { t with
        keyLocks, escalationState
        rangeLocks := t.rangesAfter txnId (t.effect txnId choice call)
        waiterGraph := t.graphAfter txnId call } := by
  -- a key that is granted leaves the range locks alone
  have hgrant : ∀ key mode, t.rangesAfter txnId (t.grantOn txnId key mode) = t.rangeLocks := by
    intro key mode
    unfold grantOn
    split <;> rfl
  have hkeeps : ∀ key mode, t.rangesAfter txnId
      (if (t.entry key).keeps txnId mode then .none else t.grantOn txnId key mode) =
        t.rangeLocks := by
    intro key mode
    split
    · rfl
    · exact hgrant key mode
  cases call with
  | keyTry key mode =>
      rw [effect, hkeeps, step]
      split <;> exact ⟨_, _, fun _ _ => rfl, rfl⟩
  | keyAcquire key mode holders =>
      rw [effect, hkeeps, step]
      split <;> exact ⟨_, _, fun _ _ => rfl, rfl⟩
  | keyWait key mode holders =>
      rw [step, effect]
      split
      · exact ⟨_, _, fun _ _ => rfl, rfl⟩
      · rw [hgrant]
        split <;> exact ⟨_, _, fun _ _ => rfl, rfl⟩
  | upgradeWait key =>
      rw [step, effect]
      split
      · exact ⟨_, _, fun _ _ => rfl, rfl⟩
      · rw [hgrant]
        split <;> exact ⟨_, _, fun _ _ => rfl, rfl⟩
  | registerEscalation => exact ⟨_, _, fun _ hne => AList.lookup_insert_ne hne, rfl⟩
  | unregisterEscalation => exact ⟨_, _, fun _ hne => AList.lookup_erase_ne hne, rfl⟩
  | keyRecord key =>
      rw [step]
      split
      · exact ⟨_, _, fun _ _ => rfl, rfl⟩
      · exact ⟨_, _, fun _ hne => AList.lookup_insert_ne hne, rfl⟩
  | keyEscalate =>
      rw [step]
      split
      · exact ⟨_, _, fun _ _ => rfl, rfl⟩
      · simp only
        split <;> exact ⟨_, _, fun _ hne => AList.lookup_insert_ne hne, rfl⟩
  | rangeCheck start last mode escalating =>
      rw [step]
      split
      · exact ⟨_, _, fun _ _ => rfl, rfl⟩
      · split <;> exact ⟨_, _, fun _ _ => rfl, rfl⟩
  | rangeScan start last mode escalating todo =>
      cases choice <;> simp only [step] <;> split <;> exact ⟨_, _, fun _ _ => rfl, rfl⟩
  | releaseKeys todo =>
      cases choice <;> simp only [step] <;> split <;> exact ⟨_, _, fun _ _ => rfl, rfl⟩
  | keyRange key mode => rw [step]; split <;> exact ⟨_, _, fun _ _ => rfl, rfl⟩
  | keyEntry key mode => rw [step]; split <;> exact ⟨_, _, fun _ _ => rfl, rfl⟩
  | upgradeGet key => rw [step]; split <;> exact ⟨_, _, fun _ _ => rfl, rfl⟩
  | upgradeCheck key => rw [step]; split <;> exact ⟨_, _, fun _ _ => rfl, rfl⟩
  | _ => exact ⟨_, _, fun _ _ => rfl, rfl⟩

/-- The range locks after a step. -/
theorem rangeLocks_step (t : LockTable) (txnId : ℕ) (choice : LockChoice) (call : LockCall) :
    (t.step txnId choice call).1.rangeLocks =
      t.rangesAfter txnId (t.effect txnId choice call) := by
  obtain ⟨_, _, _, hstep⟩ := t.step_parts txnId choice call
  rw [hstep]

theorem modeOf_step (t : LockTable) (txnId : ℕ) (choice : LockChoice) (call : LockCall)
    (key' : Bytes) (txnId' : ℕ) :
    (t.step txnId choice call).1.modeOf key' txnId' =
      match t.effect txnId choice call with
      | .grant key mode =>
          if key' = key ∧ txnId' = txnId then some mode else t.modeOf key' txnId'
      | .release key => if key' = key ∧ txnId' = txnId then none else t.modeOf key' txnId'
      | _ => t.modeOf key' txnId' := by
  rw [modeOf, entry_step]
  cases t.effect txnId choice call with
  | grant key mode =>
      simp only [entryAfter]
      by_cases hkey : key' = key
      · rw [if_pos hkey, LockEntry.getMode_insert, hkey]
        simp [modeOf]
      · simp [hkey, modeOf]
  | release key =>
      simp only [entryAfter]
      by_cases hkey : key' = key
      · rw [if_pos hkey, LockEntry.getMode_release, hkey]
        simp [modeOf]
      · simp [hkey, modeOf]
  | _ => rfl

/-- What can be said of every effect of a call: a lock on a key is granted only if it goes
with every other mode on its entry, and a range lock is one of the transaction. -/
def Sound (t : LockTable) (txnId : ℕ) : LockEffect → Prop
  | .grant key mode => (t.entry key).isCompatibleWithHolders txnId mode = true
  | .insertRange e => e.txnId = txnId
  | _ => True

theorem sound_grantOn (t : LockTable) (txnId : ℕ) (key : Bytes) (mode : LockMode) :
    t.Sound txnId (t.grantOn txnId key mode) := by
  unfold grantOn
  split
  · assumption
  · trivial

theorem sound_effect (t : LockTable) (txnId : ℕ) (choice : LockChoice) (call : LockCall) :
    t.Sound txnId (t.effect txnId choice call) := by
  cases call with
  | keyTry key mode =>
      rw [effect]
      split
      · trivial
      · exact t.sound_grantOn txnId key mode
  | keyAcquire key mode holders =>
      rw [effect]
      split
      · trivial
      · exact t.sound_grantOn txnId key mode
  | keyWait key mode holders =>
      rw [effect]
      split
      · trivial
      · exact t.sound_grantOn txnId key mode
  | upgradeWait key =>
      rw [effect]
      split
      · trivial
      · exact t.sound_grantOn txnId key .x
  | rangeInsert start last mode escalating => exact rfl
  | releaseKeys todo => cases choice <;> trivial
  | _ => trivial

end LockTable
end Crabstash

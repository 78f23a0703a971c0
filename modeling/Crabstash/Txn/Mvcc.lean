import Crabstash.Lock.LockMode
import Crabstash.Lock.Ssi
import Crabstash.Storage.Lsm
import Crabstash.Txn.Timestamp
import Crabstash.Txn.Transaction

/-!
# The engine

`MvccEngine` of `mvcc.rs`: transactions on top of an `Lsm`.  A transaction reads the
storage at its start timestamp and keeps its writes to itself; `commit` asks the
`SSIManager` and the `TransactionManager`, applies the writes to the storage one by
one, and only then looks whether the transaction is active at all.

A handle guards one `Transaction`, and `txns` has what each handle guards, by the
number of the transaction.  The methods are given the transaction that they find
behind the handle and store it back.

The clock is an input, and so is the answer of the lock manager, which decides
nothing else here: the locks of a transaction are released when it ends, and no
method looks at them.
-/

namespace Crabstash

open Crabstash.Action

/-- The engine with the handles that its callers hold. -/
structure MvccEngine where
  storage : Lsm
  tsOracle : TimestampOracle
  txnManager : TransactionManager
  nextTxnId : ℕ
  ssiManager : SSIManager
  txns : HashMap ℕ Transaction

/-- `lock_error_to_common`. -/
def lockErrorToCommon : LockError → Error
  | .timeout => .lockTimeout
  | .deadlock => .deadlock
  | .transactionAborted => .transactionAborted
  | .lockEscalationFailed => .lockConflict
  | .rangeConflict => .lockConflict
  | .rangeLocksDisabled => .lockConflict
  | .notHeld => .lockConflict
  | .invalidUpgrade => .lockConflict

/-- `ssi_error_to_common`. -/
def ssiErrorToCommon : SSIConflict → Error
  | .writeSkew _ => .writeSkew
  | .phantom _ => .phantomRead
  | .dangerousStructure _ _ => .serializableConflict
  | .txnNotFound => .transactionAborted

/-- The order in which a hash map and a hash set of writes are iterated, which differs
from one set to the next. -/
structure IterOrder where
  puts : WriteSet → List (Bytes × Bytes)
  deletes : WriteSet → List Bytes
  puts_perm : ∀ w, (puts w).Perm w.iterPuts
  deletes_perm : ∀ w, (deletes w).Perm w.iterDeletes

namespace IterOrder

/-- The order of insertion. -/
def inserted : IterOrder where
  puts := WriteSet.iterPuts
  deletes := WriteSet.iterDeletes
  puts_perm := fun _ => List.Perm.refl _
  deletes_perm := fun _ => List.Perm.refl _

/-- The writes of a set in the order in which `commit` applies them: the puts first. -/
def operations (order : IterOrder) (w : WriteSet) : List BatchOperation :=
  ((order.puts w).map fun (key, value) => .put key value) ++
    (order.deletes w).map fun key => .delete key

theorem operations_eq_nil_iff {order : IterOrder} {w : WriteSet} :
    order.operations w = [] ↔ w.writeKeys = [] := by
  have hputs := (order.puts_perm w).length_eq
  have hdeletes := (order.deletes_perm w).length_eq
  unfold operations WriteSet.writeKeys
  unfold WriteSet.iterPuts at hputs
  unfold WriteSet.iterDeletes at hdeletes
  rw [List.length_map] at hputs
  rw [List.append_eq_nil_iff, List.append_eq_nil_iff, List.map_eq_nil_iff, List.map_eq_nil_iff,
    ← List.length_eq_zero_iff, ← List.length_eq_zero_iff, hputs, hdeletes,
    List.length_eq_zero_iff, List.length_eq_zero_iff, AList.keys, List.keys, List.map_eq_nil_iff]

end IterOrder

namespace MvccEngine

/-- `MvccEngine::new`. -/
def new (storage : Lsm) : MvccEngine :=
  { storage, tsOracle := TimestampOracle.new, txnManager := TransactionManager.new
    nextTxnId := 1, ssiManager := SSIManager.new, txns := ∅ }

/-- What the handle of the transaction guards from now on. -/
def setTxn (s : MvccEngine) (txn : Transaction) : MvccEngine :=
  { s with txns := s.txns.insert txn.id txn }

/-- A method of the storage. -/
def onStorage {α : Type} (act : Action Lsm α) : Action MvccEngine α :=
  ExceptT.mk fun s => ((exec act s.storage).1, { s with storage := (exec act s.storage).2 })

/-! ## Begin -/

/-- The number and the start timestamp.  Only a deferrable transaction waits for a safe
snapshot, and takes its timestamp if the wait succeeds. -/
def drawStartTs (s : MvccEngine) (isolation : IsolationLevel) (physical : ℕ) (timedOut : Bool) :
    (ℕ × ℕ) × MvccEngine :=
  let (ts, tsOracle) := s.tsOracle.getTimestamp physical
  let safeTs := if isolation.isDeferrable then s.ssiManager.waitForSafeSnapshot timedOut else none
  ((s.nextTxnId, safeTs.getD ts), { s with nextTxnId := s.nextTxnId + 1, tsOracle })

/-- The rest of `begin_with_isolation`. -/
def register (s : MvccEngine) (isolation : IsolationLevel) (txnId startTs : ℕ) : MvccEngine :=
  let ssiManager :=
    if isolation.isSerializable then
      if isolation.isReadOnly then s.ssiManager.beginReadOnlyTxn txnId startTs
      else s.ssiManager.beginTxnWithTs txnId startTs
    else s.ssiManager
  let (txn, txnManager) := s.txnManager.begin txnId startTs isolation
  { s with ssiManager, txnManager, txns := s.txns.insert txnId txn }

/-- `begin_with_isolation`: a deferrable transaction may have to wait for a safe snapshot. -/
def beginWithIsolation (s : MvccEngine) (isolation : IsolationLevel) (physical : ℕ)
    (timedOut : Bool) : ℕ × MvccEngine :=
  let ((txnId, startTs), s) := s.drawStartTs isolation physical timedOut
  (txnId, s.register isolation txnId startTs)

/-! ## Reads and writes -/

section Hash

variable (hashKey : Bytes → UInt64)

/-- `get`: what the transaction has written itself comes first, and only a read of the storage
is recorded. -/
def get (s : MvccEngine) (txn : Transaction) (key : Bytes) : Option Bytes × MvccEngine :=
  match txn.writeSet.get key with
  | some localValue => (localValue, s)
  | none =>
      let ssiManager :=
        if txn.isolation = .serializable then s.ssiManager.recordRead hashKey txn.id key
        else s.ssiManager
      (s.storage.getAtTs key txn.startTs, { s with ssiManager }.setTxn (txn.recordRead key))

/-- What `put` and `delete` have in common.  `lock` is what `lock_key` answers. -/
def writeKey (refusal : String) (update : WriteSet → WriteSet) (txn : Transaction) (key : Bytes)
    (lock : Except LockError Unit) : Action MvccEngine Unit := do
  if txn.isolation.isReadOnly then throw (.invalidArgument refusal)
  MonadExcept.ofExcept (lock.mapError lockErrorToCommon)
  modify fun s =>
    if txn.isolation = .serializable then
      { s with ssiManager := s.ssiManager.recordWrite hashKey txn.id key }
    else s
  modify fun s => s.setTxn { txn with writeSet := update txn.writeSet }

/-- `put`. -/
def put (txn : Transaction) (key value : Bytes) (lock : Except LockError Unit) :
    Action MvccEngine Unit :=
  writeKey hashKey "cannot write in read-only transaction" (fun w => w.put key value) txn key lock

/-- `delete`. -/
def delete (txn : Transaction) (key : Bytes) (lock : Except LockError Unit) :
    Action MvccEngine Unit :=
  writeKey hashKey "cannot delete in read-only transaction" (fun w => w.delete key) txn key lock

end Hash

/-! ## Commit and abort -/

/-- `self.ts_oracle.get_timestamp()` of `commit`. -/
def drawCommitTs (physical : ℕ) : Action MvccEngine ℕ :=
  modifyGet fun s =>
    let (commitTs, tsOracle) := s.tsOracle.getTimestamp physical
    (commitTs, { s with tsOracle })

/-- `self.txn_manager.commit(&mut txn_guard)?`. -/
def managerCommit (txn : Transaction) : Action MvccEngine Unit := do
  let (txnManager, txn) ← MonadExcept.ofExcept ((← MonadState.get).txnManager.commit txn)
  modify fun s => { s with txnManager }.setTxn txn

/-- `commit` of a read-only transaction. -/
def commitReadOnly (txn : Transaction) : Action MvccEngine Unit := do
  managerCommit txn
  modify fun s =>
    if txn.isolation.isSerializable then
      { s with ssiManager := s.ssiManager.commitReadOnlyTxn txn.id }
    else s

/-- The validation by the `SSIManager`, which publishes a transaction it accepts. -/
def validateSsi (txn : Transaction) (commitTs : ℕ) : Action MvccEngine Unit :=
  if txn.isolation = .serializable then do
    let validated ← modifyGet fun s =>
      let (validated, ssiManager) := s.ssiManager.validateAndCommit txn.id txn.startTs commitTs
      (validated, { s with ssiManager })
    MonadExcept.ofExcept (validated.mapError ssiErrorToCommon)
  else pure ()

/-- `self.txn_manager.prepare_commit(txn, commit_ts)?`. -/
def prepareCommit (txn : Transaction) (commitTs : ℕ) : Action MvccEngine Transaction := do
  let txn ← MonadExcept.ofExcept ((← MonadState.get).txnManager.prepareCommit txn commitTs)
  modify fun s => s.setTxn txn
  return txn

/-- One round of the loops over the write set. -/
def applyWrite (faults : Faults IoCall) : BatchOperation → Action Lsm Unit
  | .put key value => Lsm.put faults key value
  | .delete key => Lsm.delete faults key

/-- The loops over the write set.  `faults n` strike the `n`-th call of the storage. -/
def applyWrites (faults : ℕ → Faults IoCall) : List BatchOperation → Action MvccEngine Unit
  | [] => pure ()
  | op :: rest => do
      onStorage (applyWrite (faults 0) op)
      applyWrites (fun n => faults (n + 1)) rest

section Commit

variable (order : IterOrder) (faults : ℕ → Faults IoCall)

/-- `commit` from `prepare_commit` on. -/
def applyCommit (txn : Transaction) (commitTs : ℕ) : Action MvccEngine Unit := do
  let txn ← prepareCommit txn commitTs
  applyWrites faults (order.operations txn.writeSet)
  managerCommit txn

/-- `commit`. -/
def commit (txn : Transaction) (physical : ℕ) : Action MvccEngine Unit := do
  let commitTs ← drawCommitTs physical
  if txn.isolation.isReadOnly then commitReadOnly txn
  else do
    -- what is validated is published before its writes are applied
    validateSsi txn commitTs
    applyCommit order faults txn commitTs

end Commit

/-- `abort`; the write set stays with the handle. -/
def abort (s : MvccEngine) (txn : Transaction) : MvccEngine :=
  let (txnManager, txn') := s.txnManager.abort txn
  let s := { s with txnManager }.setTxn txn'
  if txn.isolation.isSerializable then { s with ssiManager := s.ssiManager.abortTxn txn.id } else s

/-! ## What the methods leave alone -/

/-- A method on a transaction that is not applying its writes: the storage is not
touched, nothing begins, and the transaction keeps its number and its start. -/
structure Touches (txn : Transaction) (s s' : MvccEngine) : Prop where
  storage : s'.storage = s.storage
  nextTxnId : s'.nextTxnId = s.nextTxnId
  txns : s'.txns = s.txns ∨
    ∃ txn', txn'.id = txn.id ∧ txn'.startTs = txn.startTs ∧ s'.txns = s.txns.insert txn.id txn'

theorem Touches.refl (txn : Transaction) (s : MvccEngine) : Touches txn s s :=
  ⟨rfl, rfl, Or.inl rfl⟩

theorem touches_setTxn (s : MvccEngine) {txn txn' : Transaction} (hid : txn'.id = txn.id)
    (hstart : txn'.startTs = txn.startTs) : Touches txn s (s.setTxn txn') := by
  refine ⟨rfl, rfl, Or.inr ⟨txn', hid, hstart, ?_⟩⟩
  rw [setTxn, hid]

theorem touches_get (hashKey : Bytes → UInt64) (s : MvccEngine) (txn : Transaction) (key : Bytes) :
    Touches txn s (s.get hashKey txn key).2 := by
  unfold get
  split
  · exact Touches.refl txn s
  · have hrecord : (txn.recordRead key).id = txn.id ∧
        (txn.recordRead key).startTs = txn.startTs := by
      unfold Transaction.recordRead
      split <;> exact ⟨rfl, rfl⟩
    have htouches := touches_setTxn s hrecord.1 hrecord.2
    exact ⟨rfl, rfl, htouches.txns⟩

theorem touches_writeKey (hashKey : Bytes → UInt64) (s : MvccEngine) (refusal : String)
    (update : WriteSet → WriteSet) (txn : Transaction) (key : Bytes)
    (lock : Except LockError Unit) :
    Touches txn s (exec (writeKey hashKey refusal update txn key lock) s).2 := by
  unfold writeKey
  by_cases hreadOnly : txn.isolation.isReadOnly
  · rw [if_pos hreadOnly]
    exact Touches.refl txn s
  · rw [if_neg hreadOnly]
    cases lock with
    | error e => exact Touches.refl txn s
    | ok _ =>
        have htxns : ∀ s' : MvccEngine, s'.storage = s.storage → s'.nextTxnId = s.nextTxnId →
            s'.txns = s.txns →
            Touches txn s (s'.setTxn { txn with writeSet := update txn.writeSet }) := by
          intro s' hstorage hnext htxns
          refine ⟨hstorage, hnext, Or.inr ⟨{ txn with writeSet := update txn.writeSet }, rfl, rfl, ?_⟩⟩
          rw [setTxn, htxns]
        apply htxns
        · split <;> rfl
        · split <;> rfl
        · split <;> rfl

theorem touches_abort (s : MvccEngine) (txn : Transaction) : Touches txn s (s.abort txn) := by
  by_cases hserializable : txn.isolation.isSerializable
  · have habort : s.abort txn =
        { { s with txnManager := (s.txnManager.abort txn).1 }.setTxn (s.txnManager.abort txn).2 with
          ssiManager := s.ssiManager.abortTxn txn.id } := if_pos hserializable
    rw [habort]
    exact ⟨rfl, rfl, Or.inr ⟨{ txn with state := .aborted }, rfl, rfl, rfl⟩⟩
  · have habort : s.abort txn =
        { s with txnManager := (s.txnManager.abort txn).1 }.setTxn (s.txnManager.abort txn).2 :=
      if_neg hserializable
    rw [habort]
    exact ⟨rfl, rfl, Or.inr ⟨{ txn with state := .aborted }, rfl, rfl, rfl⟩⟩

theorem exec_validateSsi (s : MvccEngine) {txn : Transaction} (commitTs : ℕ)
    (hserializable : txn.isolation = .serializable) :
    exec (validateSsi txn commitTs) s =
      ((s.ssiManager.validateAndCommit txn.id txn.startTs commitTs).1.mapError ssiErrorToCommon,
        { s with
          ssiManager := (s.ssiManager.validateAndCommit txn.id txn.startTs commitTs).2 }) := by
  unfold validateSsi
  rw [if_pos hserializable, exec_modifyGet_bind]
  cases (s.ssiManager.validateAndCommit txn.id txn.startTs commitTs).1 <;> rfl

theorem exec_validateSsi_of_ne (s : MvccEngine) {txn : Transaction} (commitTs : ℕ)
    (hother : txn.isolation ≠ .serializable) :
    exec (validateSsi txn commitTs) s = (.ok (), s) := by
  unfold validateSsi
  rw [if_neg hother]
  rfl

theorem touches_validateSsi (s : MvccEngine) (txn : Transaction) (commitTs : ℕ) :
    Touches txn s (exec (validateSsi txn commitTs) s).2 := by
  by_cases hserializable : txn.isolation = .serializable
  · rw [exec_validateSsi s commitTs hserializable]
    exact ⟨rfl, rfl, Or.inl rfl⟩
  · rw [exec_validateSsi_of_ne s commitTs hserializable]
    exact Touches.refl txn s

theorem exec_prepareCommit (s : MvccEngine) (txn : Transaction) (commitTs : ℕ) :
    exec (prepareCommit txn commitTs) s =
      match s.txnManager.prepareCommit txn commitTs with
      | .ok txn' => (.ok txn', s.setTxn txn')
      | .error e => (.error e, s) := by
  unfold prepareCommit
  rw [exec_get_bind]
  cases s.txnManager.prepareCommit txn commitTs <;> rfl

theorem touches_prepareCommit (s : MvccEngine) (txn : Transaction) (commitTs : ℕ) :
    Touches txn s (exec (prepareCommit txn commitTs) s).2 := by
  rw [exec_prepareCommit]
  split
  · next txn' hprepared =>
      rw [TransactionManager.prepareCommit_ok hprepared]
      apply touches_setTxn
      · rfl
      · rfl
  · exact Touches.refl txn s

theorem exec_managerCommit (s : MvccEngine) (txn : Transaction) :
    exec (managerCommit txn) s =
      match s.txnManager.commit txn with
      | .ok (txnManager, txn') => (.ok (), { s with txnManager }.setTxn txn')
      | .error e => (.error e, s) := by
  unfold managerCommit
  rw [exec_get_bind]
  cases s.txnManager.commit txn <;> rfl

theorem touches_managerCommit (s : MvccEngine) (txn : Transaction) :
    Touches txn s (exec (managerCommit txn) s).2 := by
  rw [exec_managerCommit]
  split
  · next txnManager txn' hcommitted =>
      obtain ⟨_, _, rfl⟩ := TransactionManager.commit_ok hcommitted
      exact ⟨rfl, rfl, Or.inr ⟨{ txn with state := .committed }, rfl, rfl, rfl⟩⟩
  · exact Touches.refl txn s

/-- `commitReadOnly` goes as `managerCommit` does; a serializable transaction that is
committed also leaves the read-only transactions of the `SSIManager`. -/
theorem commitReadOnly_cases (s : MvccEngine) (txn : Transaction) :
    exec (commitReadOnly txn) s = exec (managerCommit txn) s ∨
    (exec (managerCommit txn) s).1 = .ok () ∧
      exec (commitReadOnly txn) s = (.ok (), { (exec (managerCommit txn) s).2 with
        ssiManager := (exec (managerCommit txn) s).2.ssiManager.commitReadOnlyTxn txn.id }) := by
  unfold commitReadOnly
  cases hresult : exec (managerCommit txn) s with
  | mk result s' =>
      cases result with
      | error e => exact Or.inl (exec_bind_error hresult _)
      | ok _ =>
          rw [exec_bind_ok hresult]
          cases hserializable : txn.isolation.isSerializable with
          | true => exact Or.inr ⟨rfl, rfl⟩
          | false => exact Or.inl rfl

theorem touches_commitReadOnly (s : MvccEngine) (txn : Transaction) :
    Touches txn s (exec (commitReadOnly txn) s).2 := by
  have hcommit := touches_managerCommit s txn
  obtain hsame | ⟨-, htold⟩ := commitReadOnly_cases s txn
  · rw [hsame]
    exact hcommit
  · rw [htold]
    exact ⟨hcommit.storage, hcommit.nextTxnId, hcommit.txns⟩

end MvccEngine
end Crabstash

import Crabstash.Lock.Exclusion
import Crabstash.Lock.LockCalls
import Crabstash.Txn.MvccSystem

/-!
# Transactions and their locks

The engine together with its lock table, and any number of calls on both.  `put` and
`delete` are calls of `lock_key` between two looks at the transaction, which nobody guards
in between; `commit` holds the guard of the transaction until the transaction is committed
and releases the locks after that, and so does `abort`.  Input and output may fail in a
commit, which then returns with the transaction active and its locks held.

What goes to the storage directly, and the threads of the storage itself, are one step that
may leave any storage behind.

A handle may be used by several threads, so that calls on one transaction overlap: a `put`
can still be waiting for its lock when the transaction is aborted, and get the lock later.
-/

namespace Crabstash

open Crabstash.Action

/-! ## The parts of the methods -/

namespace WriteSet

/-- A put or a delete enters the write set. -/
def apply (w : WriteSet) : BatchOperation → WriteSet
  | .put key value => w.put key value
  | .delete key => w.delete key

theorem mem_writeKeys {w : WriteSet} {key : Bytes} :
    key ∈ w.writeKeys ↔ key ∈ w.puts ∨ key ∈ w.deletes := by
  rw [writeKeys, List.mem_append, AList.mem_keys]

theorem mem_writeKeys_apply {w : WriteSet} {op : BatchOperation} {key : Bytes} :
    key ∈ (w.apply op).writeKeys ↔ key = op.key ∨ key ∈ w.writeKeys := by
  cases op with
  | put key' value =>
      have hdeletes : key ∈ (w.put key' value).deletes ↔ key ≠ key' ∧ key ∈ w.deletes :=
        w.nodup.mem_erase_iff
      rw [mem_writeKeys, mem_writeKeys, apply, hdeletes]
      simp only [put, AList.mem_insert, BatchOperation.key]
      grind
  | delete key' =>
      have hdeletes : key ∈ (w.delete key').deletes ↔ key = key' ∨ key ∈ w.deletes :=
        List.mem_insert_iff
      rw [mem_writeKeys, mem_writeKeys, apply, hdeletes]
      simp only [delete, AList.mem_erase, BatchOperation.key]
      grind

end WriteSet

namespace MvccEngine

/-- `record_write` in `put` and `delete`. -/
def recordWrite (hashKey : Bytes → UInt64) (s : MvccEngine) (txnId : ℕ)
    (isolation : IsolationLevel) (key : Bytes) : MvccEngine :=
  if isolation = .serializable then
    { s with ssiManager := s.ssiManager.recordWrite hashKey txnId key }
  else s

/-- The end of `put` and `delete`. -/
def storeWrite (s : MvccEngine) (txn : Transaction) (op : BatchOperation) : MvccEngine :=
  s.setTxn { txn with writeSet := txn.writeSet.apply op }

/-- The part of `abort` under the guard. -/
def managerAbort (s : MvccEngine) (txn : Transaction) : MvccEngine :=
  let (txnManager, txn) := s.txnManager.abort txn
  { s with txnManager }.setTxn txn

/-- `ssi_manager.abort_txn`, which only serializable transactions call. -/
def ssiAbort (s : MvccEngine) (txnId : ℕ) (isolation : IsolationLevel) : MvccEngine :=
  if isolation.isSerializable then { s with ssiManager := s.ssiManager.abortTxn txnId } else s

/-- With the lock, and nothing in between, the parts are a `put`. -/
theorem exec_put_ok (hashKey : Bytes → UInt64) (s : MvccEngine) {txn : Transaction}
    (key value : Bytes) (hwritable : txn.isolation.isReadOnly = false) :
    exec (put hashKey txn key value (.ok ())) s =
      (.ok (), (s.recordWrite hashKey txn.id txn.isolation key).storeWrite txn (.put key value)) := by
  unfold put writeKey
  rw [hwritable]
  rfl

theorem exec_delete_ok (hashKey : Bytes → UInt64) (s : MvccEngine) {txn : Transaction}
    (key : Bytes) (hwritable : txn.isolation.isReadOnly = false) :
    exec (delete hashKey txn key (.ok ())) s =
      (.ok (), (s.recordWrite hashKey txn.id txn.isolation key).storeWrite txn (.delete key)) := by
  unfold delete writeKey
  rw [hwritable]
  rfl

theorem abort_eq (s : MvccEngine) (txn : Transaction) :
    s.abort txn = (s.managerAbort txn).ssiAbort txn.id txn.isolation := rfl

end MvccEngine

/-- The next step of a commit whose writes may fail. -/
def commitStep (faults : Faults IoCall) (order : IterOrder) (txn : Transaction) :
    CommitProgress → Action MvccEngine (Option CommitProgress)
  | .writing ts op todo => do
      MvccEngine.onStorage (Lsm.writeAt faults ts op)
      return some (.applying todo)
  | progress => MvccSystem.commitNext order txn progress

theorem commitStep_noFaults (order : IterOrder) (txn : Transaction) (progress : CommitProgress) :
    commitStep noFaults order txn progress = MvccSystem.commitNext order txn progress := by
  cases progress <;> rfl

theorem commitStep_drawn (faults : Faults IoCall) (order : IterOrder) (txn : Transaction)
    (commitTs : ℕ) : commitStep faults order txn (.drawn commitTs) =
      MvccSystem.commitNext order txn (.drawn commitTs) := rfl

theorem commitStep_validated (faults : Faults IoCall) (order : IterOrder) (txn : Transaction)
    (commitTs : ℕ) : commitStep faults order txn (.validated commitTs) =
      MvccSystem.commitNext order txn (.validated commitTs) := rfl

theorem commitStep_applying (faults : Faults IoCall) (order : IterOrder) (txn : Transaction)
    (todo : List BatchOperation) : commitStep faults order txn (.applying todo) =
      MvccSystem.commitNext order txn (.applying todo) := rfl

/-- The part of `commit` that runs in one step, with what it returns and leaves behind. -/
inductive CommitPart (faults : Faults IoCall) (order : IterOrder) (s : MvccEngine)
    (txn : Transaction) : CommitProgress → Except Error (Option CommitProgress) × MvccEngine → Prop
  | readOnly (commitTs : ℕ) (hreadOnly : txn.isolation.isReadOnly = true) :
      CommitPart faults order s txn (.drawn commitTs)
        ((exec (MvccEngine.commitReadOnly txn) s).1.map fun _ => none,
          (exec (MvccEngine.commitReadOnly txn) s).2)
  | validates (commitTs : ℕ) (hserializable : txn.isolation = .serializable) :
      CommitPart faults order s txn (.drawn commitTs)
        ((exec (MvccEngine.validateSsi txn commitTs) s).1.map fun _ => some (.validated commitTs),
          (exec (MvccEngine.validateSsi txn commitTs) s).2)
  | skips (commitTs : ℕ) (hwritable : ¬txn.isolation.isReadOnly = true)
      (hother : txn.isolation ≠ .serializable) :
      CommitPart faults order s txn (.drawn commitTs) (.ok (some (.validated commitTs)), s)
  | prepares (commitTs : ℕ)
      (hprepared : s.txnManager.prepareCommit txn commitTs =
        .ok { txn with commitTs := some commitTs }) :
      CommitPart faults order s txn (.validated commitTs)
        (.ok (some (.applying (order.operations txn.writeSet))),
          s.setTxn { txn with commitTs := some commitTs })
  | refuses (commitTs : ℕ) {e : Error}
      (hrefused : s.txnManager.prepareCommit txn commitTs = .error e) :
      CommitPart faults order s txn (.validated commitTs) (.error e, s)
  | finishes :
      CommitPart faults order s txn (.applying [])
        ((exec (MvccEngine.managerCommit txn) s).1.map fun _ => none,
          (exec (MvccEngine.managerCommit txn) s).2)
  | draws (op : BatchOperation) (todo : List BatchOperation) :
      CommitPart faults order s txn (.applying (op :: todo))
        (.ok (some (.writing s.storage.nextTs op todo)),
          { s with storage := (exec (Lsm.fetchAddTs 1) s.storage).2 })
  | writes (ts : ℕ) (op : BatchOperation) (todo : List BatchOperation) :
      CommitPart faults order s txn (.writing ts op todo)
        ((exec (Lsm.writeAt faults ts op) s.storage).1.map fun _ => some (.applying todo),
          { s with storage := (exec (Lsm.writeAt faults ts op) s.storage).2 })

theorem commitStep_part (faults : Faults IoCall) (order : IterOrder) (s : MvccEngine)
    (txn : Transaction) (progress : CommitProgress) :
    CommitPart faults order s txn progress (exec (commitStep faults order txn progress) s) := by
  cases progress with
  | drawn commitTs =>
      rw [commitStep_drawn, MvccSystem.commitNext]
      split
      · next hreadOnly =>
          rw [exec_bind_pure]
          exact .readOnly commitTs hreadOnly
      · next hwritable =>
          rw [exec_bind_pure]
          -- the first validator is called for serializable transactions only
          by_cases hserializable : txn.isolation = .serializable
          · exact .validates commitTs hserializable
          · rw [MvccEngine.exec_validateSsi_of_ne s commitTs hserializable]
            exact .skips commitTs hwritable hserializable
  | validated commitTs =>
      rw [commitStep_validated, MvccSystem.commitNext, exec_bind_pure,
        MvccEngine.exec_prepareCommit]
      cases hprepared : s.txnManager.prepareCommit txn commitTs with
      | error e => exact .refuses commitTs hprepared
      | ok txn' =>
          obtain rfl := TransactionManager.prepareCommit_ok hprepared
          exact .prepares commitTs hprepared
  | applying todo =>
      cases todo with
      | nil =>
          rw [commitStep_applying, MvccSystem.commitNext, exec_bind_pure]
          exact .finishes
      | cons op todo => exact .draws op todo
  | writing ts op todo =>
      rw [commitStep, exec_bind_pure]
      exact .writes ts op todo

/-! ## The system -/

/-- A call that holds no guard, and how far it has come. -/
inductive EngineCall where
  | write (txnId : ℕ) (isolation : IsolationLevel) (op : BatchOperation) (lock : LockCall)
  | record (txnId : ℕ) (isolation : IsolationLevel) (op : BatchOperation)
  | store (txnId : ℕ) (op : BatchOperation)
  | ssiAbort (txnId : ℕ) (isolation : IsolationLevel)
  | release (txnId : ℕ) (lock : LockCall)

/-- The transaction that the call belongs to. -/
def EngineCall.txnId : EngineCall → ℕ
  | write txnId _ _ _ => txnId
  | record txnId _ _ => txnId
  | store txnId _ => txnId
  | ssiAbort txnId _ => txnId
  | release txnId _ => txnId

/-- The transactions that are being begun and committed, by their numbers, and the other
calls. -/
structure TxnSystem where
  engine : MvccEngine
  locks : LockTable
  starting : HashMap ℕ (IsolationLevel × ℕ × LockCall)
  commits : HashMap ℕ CommitProgress
  calls : HashMap ℕ EngineCall
  nextCallId : ℕ

/-- A call of the engine begins or takes its next step, or the storage is changed from outside.
-/
inductive TxnStep where
  | begin (isolation : IsolationLevel) (physical : ℕ) (timedOut : Bool)
  | continueBegin (txnId : ℕ) (choice : LockChoice)
  | get (txnId : ℕ) (key : Bytes)
  | write (txnId : ℕ) (op : BatchOperation)
  | commit (txnId physical : ℕ)
  | continueCommit (txnId : ℕ) (order : IterOrder) (faults : Faults IoCall)
  | abort (txnId : ℕ)
  | advance (callId : ℕ) (choice : LockChoice)
  | onStorage (storage : Lsm)

namespace TxnSystem

/-- `MvccEngine::with_lock_config`. -/
def init (storage : Lsm) (config : LockConfig) : TxnSystem :=
  { engine := MvccEngine.new storage, locks := LockTable.new config, starting := ∅, commits := ∅
    calls := ∅, nextCallId := 0 }

/-- The transaction behind a handle that no commit guards. -/
def unlocked (s : TxnSystem) (txnId : ℕ) : Option Transaction :=
  match s.commits.lookup txnId with
  | some _ => none
  | none => s.engine.txns.lookup txnId

/-- The transaction and how far its commit has come, while it is under way. -/
def committing (s : TxnSystem) (txnId : ℕ) : Option (Transaction × CommitProgress) :=
  match s.commits.lookup txnId, s.engine.txns.lookup txnId with
  | some progress, some txn => some (txn, progress)
  | _, _ => none

/-- A new call. -/
def invoke (s : TxnSystem) (call : EngineCall) : TxnSystem :=
  { s with calls := s.calls.insert s.nextCallId call, nextCallId := s.nextCallId + 1 }

/-- The call stays under way with what it does next. -/
def goOn (s : TxnSystem) (callId : ℕ) (call : EngineCall) : TxnSystem :=
  { s with calls := s.calls.insert callId call }

/-- The call returns. -/
def finish (s : TxnSystem) (callId : ℕ) : TxnSystem := { s with calls := s.calls.erase callId }

/-- The commit goes on; or the transaction is committed, and what is left is to release its
locks; or the commit returns an error. -/
def proceed (s : TxnSystem) (txnId : ℕ) :
    Except Error (Option CommitProgress) × MvccEngine → TxnSystem
  | (.ok (some progress), engine) => { s with engine, commits := s.commits.insert txnId progress }
  | (.ok none, engine) =>
      { s with engine, commits := s.commits.erase txnId }.invoke
        (.release txnId LockRequest.releaseAll.call)
  | (.error _, engine) => { s with engine, commits := s.commits.erase txnId }

variable (hashKey : Bytes → UInt64)

/-- The next step of a call. -/
def advance (s : TxnSystem) (callId : ℕ) (choice : LockChoice) : EngineCall → TxnSystem
  | .write txnId isolation op lock =>
      match lock.result with
      | some (.ok ()) => s.goOn callId (.record txnId isolation op)
      | some (.error _) => s.finish callId
      | none =>
          let (locks, lock) := s.locks.step txnId choice lock
          { s with locks }.goOn callId (.write txnId isolation op lock)
  | .record txnId isolation op =>
      { s with engine := s.engine.recordWrite hashKey txnId isolation op.key }.goOn callId
        (.store txnId op)
  | .store txnId op =>
      match s.unlocked txnId with
      | none => s
      | some txn => { s with engine := s.engine.storeWrite txn op }.finish callId
  | .ssiAbort txnId isolation =>
      { s with engine := s.engine.ssiAbort txnId isolation }.goOn callId
        (.release txnId LockRequest.releaseAll.call)
  | .release txnId lock =>
      match lock.result with
      | some _ => s.finish callId
      | none =>
          let (locks, lock) := s.locks.step txnId choice lock
          { s with locks }.goOn callId (.release txnId lock)

/-- One step of one call; where it is not its turn, nothing happens. -/
def step (s : TxnSystem) : TxnStep → TxnSystem
  | .begin isolation physical timedOut =>
      let ((txnId, startTs), engine) := s.engine.drawStartTs isolation physical timedOut
      { s with
        engine
        starting :=
          s.starting.insert txnId (isolation, startTs, (LockRequest.registerTxn startTs 0).call) }
  | .continueBegin txnId choice =>
      match s.starting.lookup txnId with
      | none => s
      | some (isolation, startTs, lock) =>
          match lock.result with
          | some _ =>
              { s with
                engine := s.engine.register isolation txnId startTs
                starting := s.starting.erase txnId }
          | none =>
              let (locks, lock) := s.locks.step txnId choice lock
              { s with locks, starting := s.starting.insert txnId (isolation, startTs, lock) }
  | .get txnId key =>
      match s.unlocked txnId with
      | none => s
      | some txn => { s with engine := (s.engine.get hashKey txn key).2 }
  | .write txnId op =>
      match s.unlocked txnId with
      | none => s
      | some txn =>
          if txn.isolation.isReadOnly then s
          else s.invoke (.write txnId txn.isolation op (LockRequest.lockKey op.key .x).call)
  | .commit txnId physical =>
      match s.unlocked txnId with
      | none => s
      | some _ =>
          s.proceed txnId (exec (do
            let commitTs ← MvccEngine.drawCommitTs physical
            return some (.drawn commitTs)) s.engine)
  | .continueCommit txnId order faults =>
      match s.committing txnId with
      | none => s
      | some (txn, progress) =>
          s.proceed txnId (exec (commitStep faults order txn progress) s.engine)
  | .abort txnId =>
      match s.unlocked txnId with
      | none => s
      | some txn =>
          { s with engine := s.engine.managerAbort txn }.invoke (.ssiAbort txnId txn.isolation)
  | .advance callId choice =>
      match s.calls.lookup callId with
      | none => s
      | some call => s.advance hashKey callId choice call
  | .onStorage storage => { s with engine := { s.engine with storage } }

/-! ## What a step does -/

/-- What the next step of a call makes of the system. -/
inductive AdvanceEffect (s : TxnSystem) (callId : ℕ) (choice : LockChoice) :
    EngineCall → TxnSystem → Prop
  | granted {txnId : ℕ} {isolation : IsolationLevel} {op : BatchOperation} {lock : LockCall}
      (hresult : lock.result = some (.ok ())) :
      AdvanceEffect s callId choice (.write txnId isolation op lock)
        (s.goOn callId (.record txnId isolation op))
  | refused {txnId : ℕ} {isolation : IsolationLevel} {op : BatchOperation} {lock : LockCall}
      {e : LockError} (hresult : lock.result = some (.error e)) :
      AdvanceEffect s callId choice (.write txnId isolation op lock) (s.finish callId)
  | locks {txnId : ℕ} {isolation : IsolationLevel} {op : BatchOperation} {lock : LockCall}
      (hresult : lock.result = none) :
      AdvanceEffect s callId choice (.write txnId isolation op lock)
        ({ s with locks := (s.locks.step txnId choice lock).1 }.goOn callId
          (.write txnId isolation op (s.locks.step txnId choice lock).2))
  | records {txnId : ℕ} {isolation : IsolationLevel} {op : BatchOperation} :
      AdvanceEffect s callId choice (.record txnId isolation op)
        ({ s with engine := s.engine.recordWrite hashKey txnId isolation op.key }.goOn callId
          (.store txnId op))
  | blocked {txnId : ℕ} {op : BatchOperation} (hlocked : s.unlocked txnId = none) :
      AdvanceEffect s callId choice (.store txnId op) s
  | stores {txnId : ℕ} {op : BatchOperation} {txn : Transaction}
      (hunlocked : s.unlocked txnId = some txn) :
      AdvanceEffect s callId choice (.store txnId op)
        ({ s with engine := s.engine.storeWrite txn op }.finish callId)
  | aborts {txnId : ℕ} {isolation : IsolationLevel} :
      AdvanceEffect s callId choice (.ssiAbort txnId isolation)
        ({ s with engine := s.engine.ssiAbort txnId isolation }.goOn callId
          (.release txnId LockRequest.releaseAll.call))
  | released {txnId : ℕ} {lock : LockCall} {result : Except LockError Unit}
      (hresult : lock.result = some result) :
      AdvanceEffect s callId choice (.release txnId lock) (s.finish callId)
  | releases {txnId : ℕ} {lock : LockCall} (hresult : lock.result = none) :
      AdvanceEffect s callId choice (.release txnId lock)
        ({ s with locks := (s.locks.step txnId choice lock).1 }.goOn callId
          (.release txnId (s.locks.step txnId choice lock).2))

/-- What a step makes of the system. -/
inductive StepEffect (s : TxnSystem) : TxnStep → TxnSystem → Prop
  | nothing (action : TxnStep) : StepEffect s action s
  | draws (isolation : IsolationLevel) (physical : ℕ) (timedOut : Bool) :
      StepEffect s (.begin isolation physical timedOut)
        { s with
          engine := (s.engine.drawStartTs isolation physical timedOut).2
          starting := s.starting.insert (s.engine.drawStartTs isolation physical timedOut).1.1
            (isolation, (s.engine.drawStartTs isolation physical timedOut).1.2,
              (LockRequest.registerTxn
                (s.engine.drawStartTs isolation physical timedOut).1.2 0).call) }
  | registers {txnId startTs : ℕ} {isolation : IsolationLevel} {lock : LockCall}
      {result : Except LockError Unit} (choice : LockChoice)
      (hstarting : s.starting.lookup txnId = some (isolation, startTs, lock))
      (hresult : lock.result = some result) :
      StepEffect s (.continueBegin txnId choice)
        { s with
          engine := s.engine.register isolation txnId startTs
          starting := s.starting.erase txnId }
  | starts {txnId startTs : ℕ} {isolation : IsolationLevel} {lock : LockCall}
      (choice : LockChoice) (hstarting : s.starting.lookup txnId = some (isolation, startTs, lock))
      (hresult : lock.result = none) :
      StepEffect s (.continueBegin txnId choice)
        { s with
          locks := (s.locks.step txnId choice lock).1
          starting :=
            s.starting.insert txnId (isolation, startTs, (s.locks.step txnId choice lock).2) }
  | gets {txnId : ℕ} {txn : Transaction} (hunlocked : s.unlocked txnId = some txn) (key : Bytes) :
      StepEffect s (.get txnId key) { s with engine := (s.engine.get hashKey txn key).2 }
  | writes {txnId : ℕ} {txn : Transaction} (hunlocked : s.unlocked txnId = some txn)
      (hwritable : ¬txn.isolation.isReadOnly = true) (op : BatchOperation) :
      StepEffect s (.write txnId op)
        (s.invoke (.write txnId txn.isolation op (LockRequest.lockKey op.key .x).call))
  | commits {txnId : ℕ} {txn : Transaction} (hunlocked : s.unlocked txnId = some txn)
      (physical : ℕ) :
      StepEffect s (.commit txnId physical)
        { s with
          engine := { s.engine with tsOracle := (s.engine.tsOracle.getTimestamp physical).2 }
          commits := s.commits.insert txnId
            (.drawn (s.engine.tsOracle.getTimestamp physical).1) }
  | proceeds {txnId : ℕ} {txn : Transaction} {progress : CommitProgress} {order : IterOrder}
      {faults : Faults IoCall} (hcommitting : s.committing txnId = some (txn, progress)) :
      StepEffect s (.continueCommit txnId order faults)
        (s.proceed txnId (exec (commitStep faults order txn progress) s.engine))
  | aborts {txnId : ℕ} {txn : Transaction} (hunlocked : s.unlocked txnId = some txn) :
      StepEffect s (.abort txnId)
        ({ s with engine := s.engine.managerAbort txn }.invoke (.ssiAbort txnId txn.isolation))
  | advances {callId : ℕ} {choice : LockChoice} {call : EngineCall} {s' : TxnSystem}
      (hcall : s.calls.lookup callId = some call)
      (heffect : AdvanceEffect hashKey s callId choice call s') :
      StepEffect s (.advance callId choice) s'
  | onStorage (storage : Lsm) :
      StepEffect s (.onStorage storage) { s with engine := { s.engine with storage } }

theorem advance_effect (s : TxnSystem) (callId : ℕ) (choice : LockChoice) (call : EngineCall) :
    AdvanceEffect hashKey s callId choice call (s.advance hashKey callId choice call) := by
  cases call with
  | write txnId isolation op lock =>
      simp only [advance]
      split
      · next hresult => exact .granted hresult
      · next hresult => exact .refused hresult
      · next hresult => exact .locks hresult
  | record txnId isolation op => exact .records
  | store txnId op =>
      rw [advance]
      split
      · next hlocked => exact .blocked hlocked
      · next hunlocked => exact .stores hunlocked
  | ssiAbort txnId isolation => exact .aborts
  | release txnId lock =>
      simp only [advance]
      split
      · next hresult => exact .released hresult
      · next hresult => exact .releases hresult

theorem step_effect (s : TxnSystem) (action : TxnStep) :
    StepEffect hashKey s action (s.step hashKey action) := by
  cases action with
  | begin isolation physical timedOut => exact .draws isolation physical timedOut
  | continueBegin txnId choice =>
      rw [step]
      split
      · exact .nothing _
      · next isolation startTs lock hstarting =>
          simp only
          split
          · next hresult => exact .registers choice hstarting hresult
          · next hresult => exact .starts choice hstarting hresult
  | get txnId key =>
      rw [step]
      split
      · exact .nothing _
      · next hunlocked => exact .gets hunlocked key
  | write txnId op =>
      rw [step]
      split
      · exact .nothing _
      · next hunlocked =>
          -- a read-only transaction is refused before it asks for the lock
          split
          · exact .nothing _
          · next hwritable => exact .writes hunlocked hwritable op
  | commit txnId physical =>
      rw [step]
      split
      · exact .nothing _
      · next hunlocked => exact .commits hunlocked physical
  | continueCommit txnId order faults =>
      rw [step]
      split
      · exact .nothing _
      · next hcommitting => exact .proceeds hcommitting
  | abort txnId =>
      rw [step]
      split
      · exact .nothing _
      · next hunlocked => exact .aborts hunlocked
  | advance callId choice =>
      rw [step]
      split
      · exact .nothing _
      · next call hcall => exact .advances hcall (s.advance_effect hashKey callId choice call)
  | onStorage storage => exact .onStorage storage

end TxnSystem
end Crabstash

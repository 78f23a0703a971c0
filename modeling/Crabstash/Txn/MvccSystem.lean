import Crabstash.Storage.LastWriterWins
import Crabstash.Txn.Mvcc

/-!
# Transactions that run side by side

Any number of threads on one `MvccEngine`.  A call that touches shared state more
than once is cut into steps: `begin_with_isolation` draws its timestamp first and
returns later, and `commit` holds the lock of its handle through a sequence of steps,
of which `CommitProgress` records how many are done.  Each write of the commit draws
a timestamp from the storage in one step and is logged and inserted in another; so
does a `write_batch`, which goes to the storage directly.  The steps come in any
order.

`Observed` adds what an observer of a run writes down: which write went into the
storage when, which commits have returned, and, when a transaction begins, the values
that the commits returned by then have produced.  Nothing in the engine reads it.
-/

namespace Crabstash

open Crabstash.Action

namespace Lsm

/-- A write from the write lock on. -/
def writeAt (faults : Faults IoCall) (ts : ℕ) : BatchOperation → Action Lsm Unit
  | .put key value => putAt faults ts key value
  | .delete key => deleteAt faults ts key

end Lsm

theorem MvccEngine.applyWrite_eq (faults : Faults IoCall) (op : BatchOperation) :
    applyWrite faults op = Lsm.fetchAddTs 1 >>= fun ts => Lsm.writeAt faults ts op := by
  cases op <;> rfl

/-! ## Steps -/

/-- How far a commit has come, with the values of its local variables. -/
inductive CommitProgress where
  | drawn (commitTs : ℕ)
  | validated (commitTs : ℕ)
  | applying (todo : List BatchOperation)
  | writing (ts : ℕ) (op : BatchOperation) (todo : List BatchOperation)

/-- The engine and the calls that are under way on it. -/
structure MvccSystem where
  engine : MvccEngine
  starting : HashMap ℕ (IsolationLevel × ℕ)
  commits : HashMap ℕ CommitProgress
  batches : HashMap ℕ (ℕ × List BatchOperation)
  nextBatchId : ℕ

/-- A call of the engine begins or takes its next step. -/
inductive EngineStep where
  | drawStartTs (isolation : IsolationLevel) (physical : ℕ) (timedOut : Bool)
  | begin (txnId : ℕ)
  | get (txnId : ℕ) (key : Bytes)
  | put (txnId : ℕ) (key value : Bytes) (lock : Except LockError Unit)
  | delete (txnId : ℕ) (key : Bytes) (lock : Except LockError Unit)
  | abort (txnId : ℕ)
  | startCommit (txnId physical : ℕ)
  | continueCommit (txnId : ℕ) (order : IterOrder)
  | startBatch (operations : List BatchOperation)
  | finishBatch (batchId : ℕ)
  | sync

/-- The next step is not a step of the loops over the write set. -/
def CommitProgress.OutsideLoops : CommitProgress → Prop
  | .drawn _ => True
  | .validated _ => True
  | .applying todo => todo = []
  | .writing _ _ _ => False

namespace MvccSystem

/-- A new engine over the storage, and no calls. -/
def init (storage : Lsm) : MvccSystem :=
  { engine := MvccEngine.new storage, starting := ∅, commits := ∅, batches := ∅, nextBatchId := 0 }

/-- The transaction behind a handle that no commit has locked. -/
def unlocked (s : MvccSystem) (txnId : ℕ) : Option Transaction :=
  match s.commits.lookup txnId with
  | some _ => none
  | none => s.engine.txns.lookup txnId

/-- The transaction of a commit under way. -/
def committing (s : MvccSystem) (txnId : ℕ) : Option (Transaction × CommitProgress) :=
  match s.commits.lookup txnId, s.engine.txns.lookup txnId with
  | some progress, some txn => some (txn, progress)
  | _, _ => none

/-- The next step of a commit; none is left when it returns. -/
def commitNext (order : IterOrder) (txn : Transaction) :
    CommitProgress → Action MvccEngine (Option CommitProgress)
  | .drawn commitTs =>
      if txn.isolation.isReadOnly then do
        MvccEngine.commitReadOnly txn
        return none
      else do
        MvccEngine.validateSsi txn commitTs
        return some (.validated commitTs)
  | .validated commitTs => do
      let txn ← MvccEngine.prepareCommit txn commitTs
      return some (.applying (order.operations txn.writeSet))
  | .applying [] => do
      MvccEngine.managerCommit txn
      return none
  | .applying (op :: todo) => do
      let ts ← MvccEngine.onStorage (Lsm.fetchAddTs 1)
      return some (.writing ts op todo)
  | .writing ts op todo => do
      MvccEngine.onStorage (Lsm.writeAt noFaults ts op)
      return some (.applying todo)

/-- The commit goes on, or it has returned or thrown. -/
def proceed (s : MvccSystem) (txnId : ℕ) :
    Except Error (Option CommitProgress) × MvccEngine → MvccSystem
  | (.ok (some progress), engine) =>
      { s with engine, commits := s.commits.insert txnId progress }
  | (.ok none, engine) => { s with engine, commits := s.commits.erase txnId }
  | (.error _, engine) => { s with engine, commits := s.commits.erase txnId }

variable (hashKey : Bytes → UInt64)

/-- One step of one call; where it is not its turn, nothing happens. -/
def step (s : MvccSystem) : EngineStep → MvccSystem
  | .drawStartTs isolation physical timedOut =>
      let ((txnId, startTs), engine) := s.engine.drawStartTs isolation physical timedOut
      { s with engine, starting := s.starting.insert txnId (isolation, startTs) }
  | .begin txnId =>
      match s.starting.lookup txnId with
      | none => s
      | some (isolation, startTs) =>
          { s with
            engine := s.engine.register isolation txnId startTs
            starting := s.starting.erase txnId }
  | .get txnId key =>
      match s.unlocked txnId with
      | none => s
      | some txn => { s with engine := (s.engine.get hashKey txn key).2 }
  | .put txnId key value lock =>
      match s.unlocked txnId with
      | none => s
      | some txn =>
          { s with engine := (exec (MvccEngine.put hashKey txn key value lock) s.engine).2 }
  | .delete txnId key lock =>
      match s.unlocked txnId with
      | none => s
      | some txn =>
          { s with engine := (exec (MvccEngine.delete hashKey txn key lock) s.engine).2 }
  | .abort txnId =>
      match s.unlocked txnId with
      | none => s
      | some txn => { s with engine := s.engine.abort txn }
  | .startCommit txnId physical =>
      match s.unlocked txnId with
      | none => s
      | some _ =>
          s.proceed txnId (exec (do
            let commitTs ← MvccEngine.drawCommitTs physical
            return some (.drawn commitTs)) s.engine)
  | .continueCommit txnId order =>
      match s.committing txnId with
      | none => s
      | some (txn, progress) => s.proceed txnId (exec (commitNext order txn progress) s.engine)
  | .startBatch operations =>
      if operations.isEmpty then s
      else
        { s with
          engine :=
            { s.engine with storage := (exec (Lsm.fetchAddTs operations.length) s.engine.storage).2 }
          batches := s.batches.insert s.nextBatchId (s.engine.storage.nextTs, operations)
          nextBatchId := s.nextBatchId + 1 }
  | .finishBatch batchId =>
      match s.batches.lookup batchId with
      | none => s
      | some (baseTs, operations) =>
          { s with
            engine :=
              { s.engine with
                storage := (exec (Lsm.writeBatchAt noFaults baseTs operations) s.engine.storage).2 }
            batches := s.batches.erase batchId }
  | .sync =>
      { s with
        engine := { s.engine with storage := (exec (Lsm.sync noFaults) s.engine.storage).2 } }

/-- The engine states of the system when it starts on a storage that is in use. -/
def Reachable (engine : MvccEngine) : Prop :=
  ∃ storage steps, storage.Reachable ∧ engine = (Run.run (step hashKey) (init storage) steps).engine

end MvccSystem

/-! ## What is written to the storage -/

/-- Whose a write is: that of a transaction, or of a batch. -/
inductive Writer where
  | txn (txnId : ℕ)
  | batch (batchId : ℕ)
  deriving DecidableEq, Repr

/-- A write in the storage: whose it is, and the timestamp it has there. -/
structure LogEntry where
  writer : Writer
  op : BatchOperation
  ts : ℕ
  deriving DecidableEq, Repr

/-- The writes of a list, logged and inserted one after the other. -/
def Lsm.writeAll (s : Lsm) (entries : List LogEntry) : Lsm :=
  entries.foldl (fun s e => s.write e.op.key e.op.effect e.ts) s

namespace MvccSystem

/-- How many timestamps a step draws from the storage. -/
def drawnBy (s : MvccSystem) : EngineStep → ℕ
  | .continueCommit txnId _ =>
      match s.committing txnId with
      | some (_, .applying (_ :: _)) => 1
      | _ => 0
  | .startBatch operations => operations.length
  | _ => 0

/-- The writes a step puts into the storage. -/
def landedBy (s : MvccSystem) : EngineStep → List LogEntry
  | .continueCommit txnId _ =>
      match s.committing txnId with
      | some (_, .writing ts op _) => [⟨.txn txnId, op, ts⟩]
      | _ => []
  | .finishBatch batchId =>
      match s.batches.lookup batchId with
      | some (baseTs, operations) =>
          (operations.zipIdx baseTs).map fun (op, ts) => ⟨.batch batchId, op, ts⟩
      | none => []
  | _ => []

/-- Whether a step looks at the size of the memtable at its end. -/
def checksSize (s : MvccSystem) : EngineStep → Bool
  | .continueCommit txnId _ =>
      match s.committing txnId with
      | some (_, .writing _ (.put _ _) _) => true
      | _ => false
  | .finishBatch batchId => (s.batches.lookup batchId).isSome
  | _ => false

/-- The storage after the writes of a step. -/
def logged (s : MvccSystem) (action : EngineStep) : Lsm :=
  match action with
  | .sync => s.engine.storage.flushWal
  | action => (s.engine.storage.advance (s.drawnBy action)).writeAll (s.landedBy action)

/-- The step goes on to rotate the memtable. -/
def Rotates (s : MvccSystem) (action : EngineStep) : Prop :=
  s.checksSize action = true ∧ (s.logged action).full

instance (s : MvccSystem) (action : EngineStep) : Decidable (s.Rotates action) :=
  inferInstanceAs (Decidable (_ ∧ _))

theorem writeAll_zipIdx (s : Lsm) (writer : Writer) (operations : List BatchOperation) (ts : ℕ) :
    s.writeAll ((operations.zipIdx ts).map fun (op, ts) => ⟨writer, op, ts⟩) =
      s.writes ts operations := by
  induction operations generalizing s ts with
  | nil => rfl
  | cons op rest ih => exact ih (s.write op.key op.effect ts) (ts + 1)

/-! ## What a step of a commit does to the engine -/

@[simp] theorem engine_proceed (s : MvccSystem) (txnId : ℕ)
    (result : Except Error (Option CommitProgress) × MvccEngine) :
    (s.proceed txnId result).engine = result.2 := by
  obtain ⟨result, engine⟩ := result
  cases result with
  | error e => rfl
  | ok progress => cases progress <;> rfl

@[simp] theorem starting_proceed (s : MvccSystem) (txnId : ℕ)
    (result : Except Error (Option CommitProgress) × MvccEngine) :
    (s.proceed txnId result).starting = s.starting := by
  obtain ⟨result, engine⟩ := result
  cases result with
  | error e => rfl
  | ok progress => cases progress <;> rfl

theorem touches_commitNext (engine : MvccEngine) (order : IterOrder) (txn : Transaction)
    {progress : CommitProgress} (houtside : progress.OutsideLoops) :
    MvccEngine.Touches txn engine (exec (commitNext order txn progress) engine).2 := by
  cases progress with
  | drawn commitTs =>
      rw [commitNext]
      split
      · rw [exec_bind_pure]
        exact MvccEngine.touches_commitReadOnly engine txn
      · rw [exec_bind_pure]
        exact MvccEngine.touches_validateSsi engine txn commitTs
  | validated commitTs =>
      rw [commitNext, exec_bind_pure]
      exact MvccEngine.touches_prepareCommit engine txn commitTs
  | applying todo =>
      have htodo : todo = [] := houtside
      rw [htodo, commitNext, exec_bind_pure]
      exact MvccEngine.touches_managerCommit engine txn
  | writing ts op todo => exact houtside.elim

theorem exec_commitNext_applying (engine : MvccEngine) (order : IterOrder) (txn : Transaction)
    (op : BatchOperation) (todo : List BatchOperation) :
    exec (commitNext order txn (.applying (op :: todo))) engine =
      (.ok (some (.writing engine.storage.nextTs op todo)),
        { engine with storage := engine.storage.advance 1 }) := rfl

theorem exec_commitNext_writing (engine : MvccEngine) (order : IterOrder) (txn : Transaction)
    (ts : ℕ) (op : BatchOperation) (todo : List BatchOperation) :
    exec (commitNext order txn (.writing ts op todo)) engine =
      (.ok (some (.applying todo)),
        { engine with
          storage := match op with
            | .put key value => (engine.storage.write key (some value) ts).settle
            | .delete key => engine.storage.write key none ts }) := by
  have hexec : exec (commitNext order txn (.writing ts op todo)) engine =
      ((exec (Lsm.writeAt noFaults ts op) engine.storage).1.map fun _ => some (.applying todo),
        { engine with storage := (exec (Lsm.writeAt noFaults ts op) engine.storage).2 }) := by
    rw [commitNext, exec_bind_pure]
    rfl
  rw [hexec]
  cases op with
  | put key value =>
      rw [Lsm.writeAt, Lsm.exec_putAt]
      rfl
  | delete key =>
      rw [Lsm.writeAt, Lsm.exec_deleteAt]
      rfl

theorem engine_continueCommit {hashKey : Bytes → UInt64} {s : MvccSystem} {txnId : ℕ}
    {txn : Transaction} {progress : CommitProgress}
    (hcommitting : s.committing txnId = some (txn, progress)) (order : IterOrder) :
    (s.step hashKey (.continueCommit txnId order)).engine =
      (exec (commitNext order txn progress) s.engine).2 := by
  rw [step, hcommitting]
  exact engine_proceed s txnId _

theorem logged_of_ne {s : MvccSystem} {action : EngineStep} (hsync : action ≠ .sync) :
    s.logged action =
      (s.engine.storage.advance (s.drawnBy action)).writeAll (s.landedBy action) := by
  unfold logged
  split
  · contradiction
  · rfl

theorem ite_rotates (s : MvccSystem) (action : EngineStep) (a b : Lsm) :
    (if s.Rotates action then a else b) =
      if s.checksSize action = true ∧ (s.logged action).full then a else b := rfl

/-! ## What a step does to the engine -/

/-- The step is one of the two of `begin_with_isolation`. -/
def Begins : EngineStep → Prop
  | .drawStartTs _ _ _ => True
  | .begin _ => True
  | _ => False

/-- The step draws no timestamp from the storage and brings no write about. -/
structure Quiet (s : MvccSystem) (action : EngineStep) : Prop where
  checksSize : s.checksSize action = false
  drawnBy : s.drawnBy action = 0
  landedBy : s.landedBy action = []
  ne_sync : action ≠ .sync

theorem Quiet.logged {s : MvccSystem} {action : EngineStep} (h : s.Quiet action) :
    s.logged action = s.engine.storage := by
  rw [logged_of_ne h.ne_sync, h.drawnBy, h.landedBy]
  rfl

theorem Quiet.not_rotates {s : MvccSystem} {action : EngineStep} (h : s.Quiet action) :
    ¬ s.Rotates action := by
  intro hrotates
  have hchecks := h.checksSize
  rw [hrotates.1] at hchecks
  contradiction

/-- A step has begun a transaction, it was nobody's turn, it was a method on a transaction, or
it only changed the storage. -/
inductive EngineEffect (s : MvccSystem) (action : EngineStep) (s' : MvccSystem) : Prop
  | begins (hbegins : Begins action) (hquiet : s.Quiet action)
      (hstorage : s'.engine.storage = s.engine.storage)
  | idle (hnot : ¬ Begins action) (hquiet : s.Quiet action) (hsame : s' = s)
  | touches (hnot : ¬ Begins action) (hquiet : s.Quiet action) (hstarting : s'.starting = s.starting)
      {txnId : ℕ} {txn : Transaction} (hlookup : s.engine.txns.lookup txnId = some txn)
      (htouches : s.engine.Touches txn s'.engine)
  | stores (hnot : ¬ Begins action) (hstarting : s'.starting = s.starting)
      (hengine : s'.engine =
        { s.engine with
          storage := if s.Rotates action then (s.logged action).rotate else s.logged action })

theorem lookup_of_unlocked {s : MvccSystem} {txnId : ℕ} {txn : Transaction}
    (h : s.unlocked txnId = some txn) : s.engine.txns.lookup txnId = some txn := by
  unfold unlocked at h
  split at h
  · contradiction
  · exact h

theorem lookup_of_committing {s : MvccSystem} {txnId : ℕ} {txn : Transaction}
    {progress : CommitProgress} (h : s.committing txnId = some (txn, progress)) :
    s.engine.txns.lookup txnId = some txn ∧ s.commits.lookup txnId = some progress := by
  unfold committing at h
  split at h
  · next hprogress htxn =>
      obtain ⟨rfl, rfl⟩ := Prod.mk.inj (Option.some.inj h)
      exact ⟨htxn, hprogress⟩
  · contradiction

/-- A method through a handle: nothing happens while a commit holds the handle. -/
theorem effect_unlocked {s : MvccSystem} {action : EngineStep} (txnId : ℕ)
    (engine : Transaction → MvccEngine) (hnot : ¬ Begins action) (hquiet : s.Quiet action)
    (htouches : ∀ txn, s.engine.Touches txn (engine txn)) :
    s.EngineEffect action
      (match s.unlocked txnId with
        | none => s
        | some txn => { s with engine := engine txn }) := by
  cases hunlocked : s.unlocked txnId with
  | none => exact .idle hnot hquiet rfl
  | some txn =>
      exact .touches hnot hquiet rfl (lookup_of_unlocked hunlocked) (htouches txn)

/-- Outside the loops over the write set a commit brings no write about. -/
theorem quiet_of_outsideLoops {s : MvccSystem} {txnId : ℕ} {txn : Transaction}
    {progress : CommitProgress} (hcommitting : s.committing txnId = some (txn, progress))
    (houtside : progress.OutsideLoops) (order : IterOrder) :
    s.Quiet (.continueCommit txnId order) := by
  suffices hparts : s.checksSize (.continueCommit txnId order) = false ∧
      s.drawnBy (.continueCommit txnId order) = 0 ∧
      s.landedBy (.continueCommit txnId order) = [] from
    ⟨hparts.1, hparts.2.1, hparts.2.2, EngineStep.noConfusion⟩
  rw [MvccSystem.checksSize, MvccSystem.drawnBy, MvccSystem.landedBy, hcommitting]
  cases progress with
  | drawn commitTs => exact ⟨rfl, rfl, rfl⟩
  | validated commitTs => exact ⟨rfl, rfl, rfl⟩
  | applying todo =>
      rw [show todo = [] from houtside]
      exact ⟨rfl, rfl, rfl⟩
  | writing ts op todo => exact houtside.elim

theorem quiet_of_not_committing {s : MvccSystem} {txnId : ℕ}
    (hcommitting : s.committing txnId = none) (order : IterOrder) :
    s.Quiet (.continueCommit txnId order) where
  checksSize := by rw [MvccSystem.checksSize, hcommitting]
  drawnBy := by rw [MvccSystem.drawnBy, hcommitting]
  landedBy := by rw [MvccSystem.landedBy, hcommitting]
  ne_sync := EngineStep.noConfusion

/-- In the loops over the write set a commit only changes the storage. -/
theorem exec_commitNext_loops {s : MvccSystem} {txnId : ℕ} {txn : Transaction}
    {progress : CommitProgress} (hcommitting : s.committing txnId = some (txn, progress))
    (hloops : ¬ progress.OutsideLoops) (order : IterOrder) :
    let action := EngineStep.continueCommit txnId order
    (exec (commitNext order txn progress) s.engine).2 =
      { s.engine with
        storage := if s.Rotates action then (s.logged action).rotate else s.logged action } := by
  intro action
  rw [ite_rotates, logged_of_ne EngineStep.noConfusion, checksSize, drawnBy, landedBy, hcommitting]
  cases progress with
  | drawn commitTs => exact absurd trivial hloops
  | validated commitTs => exact absurd trivial hloops
  | applying todo =>
      cases todo with
      | nil => exact absurd rfl hloops
      | cons op todo => rfl
  | writing ts op todo =>
      rw [exec_commitNext_writing]
      cases op with
      | put key value =>
          simp only [true_and]
          rfl
      | delete key => rfl

theorem effect_continueCommit (hashKey : Bytes → UInt64) (s : MvccSystem) (txnId : ℕ)
    (order : IterOrder) :
    s.EngineEffect (.continueCommit txnId order)
      (s.step hashKey (.continueCommit txnId order)) := by
  cases hcommitting : s.committing txnId with
  | none =>
      apply EngineEffect.idle id (quiet_of_not_committing hcommitting order)
      rw [step, hcommitting]
  | some commit =>
      obtain ⟨txn, progress⟩ := commit
      have hengine : (s.step hashKey (.continueCommit txnId order)).engine =
          (exec (commitNext order txn progress) s.engine).2 :=
        engine_continueCommit hcommitting order
      have hstarting :
          (s.step hashKey (.continueCommit txnId order)).starting = s.starting := by
        rw [step, hcommitting]
        exact starting_proceed s txnId _
      by_cases houtside : progress.OutsideLoops
      · apply EngineEffect.touches id (quiet_of_outsideLoops hcommitting houtside order)
          hstarting (lookup_of_committing hcommitting).1
        rw [hengine]
        exact touches_commitNext s.engine order txn houtside
      · apply EngineEffect.stores id hstarting
        rw [hengine]
        exact exec_commitNext_loops hcommitting houtside order

theorem effect_finishBatch (hashKey : Bytes → UInt64) (s : MvccSystem) (batchId : ℕ) :
    s.EngineEffect (.finishBatch batchId) (s.step hashKey (.finishBatch batchId)) := by
  cases hbatch : s.batches.lookup batchId with
  | none =>
      apply EngineEffect.idle id
      · constructor
        · rw [checksSize, hbatch]
          rfl
        · rfl
        · rw [landedBy, hbatch]
        · exact EngineStep.noConfusion
      · rw [step, hbatch]
  | some batch =>
      obtain ⟨baseTs, operations⟩ := batch
      have hlogged : s.logged (.finishBatch batchId) =
          s.engine.storage.writes baseTs operations := by
        rw [logged_of_ne EngineStep.noConfusion, landedBy, hbatch]
        exact writeAll_zipIdx _ _ _ _
      apply EngineEffect.stores id
      · rw [step, hbatch]
      · rw [ite_rotates, checksSize, hlogged, step, hbatch]
        simp only [Option.isSome_some, true_and]
        rw [Lsm.exec_writeBatchAt]
        rfl

theorem step_effect (hashKey : Bytes → UInt64) (s : MvccSystem) (action : EngineStep) :
    s.EngineEffect action (s.step hashKey action) := by
  cases action with
  | drawStartTs isolation physical timedOut =>
      exact .begins trivial ⟨rfl, rfl, rfl, EngineStep.noConfusion⟩ rfl
  | begin txnId =>
      refine .begins trivial ⟨rfl, rfl, rfl, EngineStep.noConfusion⟩ ?_
      rw [step]
      split <;> rfl
  | get txnId key =>
      exact effect_unlocked txnId _ id ⟨rfl, rfl, rfl, EngineStep.noConfusion⟩
        fun txn => MvccEngine.touches_get hashKey s.engine txn key
  | put txnId key value lock =>
      exact effect_unlocked txnId _ id ⟨rfl, rfl, rfl, EngineStep.noConfusion⟩
        fun txn => MvccEngine.touches_writeKey hashKey s.engine
          "cannot write in read-only transaction" (fun w => w.put key value) txn key lock
  | delete txnId key lock =>
      exact effect_unlocked txnId _ id ⟨rfl, rfl, rfl, EngineStep.noConfusion⟩
        fun txn => MvccEngine.touches_writeKey hashKey s.engine
          "cannot delete in read-only transaction" (fun w => w.delete key) txn key lock
  | abort txnId =>
      exact effect_unlocked txnId _ id ⟨rfl, rfl, rfl, EngineStep.noConfusion⟩
        fun txn => MvccEngine.touches_abort s.engine txn
  | startCommit txnId physical =>
      have hquiet : s.Quiet (.startCommit txnId physical) :=
        ⟨rfl, rfl, rfl, EngineStep.noConfusion⟩
      rw [step]
      split
      · exact .idle id hquiet rfl
      · next txn hunlocked =>
          refine .touches id hquiet (starting_proceed s txnId _) (lookup_of_unlocked hunlocked) ?_
          rw [engine_proceed]
          exact ⟨rfl, rfl, Or.inl rfl⟩
  | continueCommit txnId order => exact effect_continueCommit hashKey s txnId order
  | startBatch operations =>
      -- only the end of a batch looks at the size
      have hnot : ¬ s.Rotates (.startBatch operations) := fun hrotates =>
        Bool.noConfusion hrotates.1
      cases operations with
      | nil => exact .idle id ⟨rfl, rfl, rfl, EngineStep.noConfusion⟩ rfl
      | cons op rest =>
          refine .stores id rfl ?_
          rw [if_neg hnot]
          rfl
  | finishBatch batchId => exact effect_finishBatch hashKey s batchId
  | sync =>
      refine .stores id rfl ?_
      rw [step, Lsm.exec_sync]
      rfl

/-- The storage after a step: the writes of the step and, if they filled the memtable, a
rotation. -/
theorem storage_step (hashKey : Bytes → UInt64) (s : MvccSystem) (action : EngineStep) :
    (s.step hashKey action).engine.storage =
      if s.Rotates action then (s.logged action).rotate else s.logged action := by
  cases step_effect hashKey s action with
  | begins hbegins hquiet hstorage => rw [if_neg hquiet.not_rotates, hquiet.logged, hstorage]
  | idle hnot hquiet hsame => rw [if_neg hquiet.not_rotates, hquiet.logged, hsame]
  | touches hnot hquiet hstarting hlookup htouches =>
      rw [if_neg hquiet.not_rotates, hquiet.logged, htouches.storage]
  | stores hnot hstarting hengine => rw [hengine]

end MvccSystem
end Crabstash

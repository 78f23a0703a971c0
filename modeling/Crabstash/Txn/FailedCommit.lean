import Crabstash.Storage.Durability
import Crabstash.Txn.MvccSystem

/-!
# What a failed commit leaves behind

`commit` can fail in four places: the `SSIManager` rejects, the `TransactionManager`
rejects, the storage fails, or the transaction turns out not to be active.  Only the
first comes before every effect.  The `SSIManager` has published a transaction that it
accepts when the `TransactionManager` is asked, and the latter rejects it if it has
read a key that a snapshot transaction has overwritten, which the `SSIManager` knows
nothing about.  Whether the transaction is active is looked at last, after its writes
have gone into the storage: a snapshot transaction that has been committed or aborted
can be committed again, and each time its writes are made again and the answer is
`TransactionAborted`.

`failsCleanly_iff` is for an arbitrary state of the engine, reachable or not, and says
for which transactions none of this leaves a trace.
-/

namespace Crabstash

open Crabstash.Action

/-! ## Failures of the storage are input/output errors -/

namespace Lsm

variable (faults : Faults IoCall)

theorem onlyIo_addWal (id : ℕ) : OnlyIo (addWal faults id) := by
  apply (onlyIo_attempt faults .addWalWrite).bind
  intro _
  apply (onlyIo_modify _).bind
  intro _
  apply (onlyIo_attempt faults .addWalSync).bind
  intro _
  exact onlyIo_modify _

theorem onlyIo_addSst (level id : ℕ) : OnlyIo (addSst faults level id) := by
  apply (onlyIo_attempt faults .addSstWrite).bind
  intro _
  apply (onlyIo_modify _).bind
  intro _
  apply (onlyIo_attempt faults .addSstSync).bind
  intro _
  exact onlyIo_modify _

theorem onlyIo_flushImmutable (imm : MemTable) : OnlyIo (flushImmutable faults imm) := by
  apply (onlyIo_modifyGet _).bind
  intro sstId
  apply (onlyIo_attempt faults .sstBuild).bind
  intro _
  apply (onlyIo_modify _).bind
  intro _
  apply (onlyIo_addSst faults 0 sstId).bind
  intro _
  apply (onlyIo_attempt faults .sstOpen).bind
  intro _
  exact onlyIo_modify _

theorem onlyIo_rotateMemtable : OnlyIo (rotateMemtable faults) := by
  apply onlyIo_get.bind
  intro s
  apply (onlyIo_modify _).bind
  intro _
  have hsync : OnlyIo (sync faults) :=
    (onlyIo_attempt faults .walSync).bind fun _ => onlyIo_modify _
  apply hsync.bind
  intro _
  apply (onlyIo_modifyGet _).bind
  intro walId
  apply (onlyIo_addWal faults walId).bind
  intro _
  have hcreate : OnlyIo (createWal faults walId) :=
    (onlyIo_attempt faults .walCreate).bind fun _ => onlyIo_modify _
  apply hcreate.bind
  intro _
  exact onlyIo_flushImmutable faults s.memtable

theorem onlyIo_rotateIfFull : OnlyIo (rotateIfFull faults) := by
  apply onlyIo_get.bind
  intro s
  split
  · exact onlyIo_rotateMemtable faults
  · exact onlyIo_pure ()

theorem onlyIo_applyWrite (op : BatchOperation) : OnlyIo (MvccEngine.applyWrite faults op) := by
  cases op with
  | put key value =>
      apply (onlyIo_modifyGet _).bind
      intro ts
      apply (onlyIo_attempt faults .walAppend).bind
      intro _
      apply (onlyIo_modify _).bind
      intro _
      apply (onlyIo_modify _).bind
      intro _
      exact onlyIo_rotateIfFull faults
  | delete key =>
      apply (onlyIo_modifyGet _).bind
      intro ts
      apply (onlyIo_attempt faults .walAppend).bind
      intro _
      apply (onlyIo_modify _).bind
      intro _
      exact onlyIo_modify _

/-! ## Writes leave a trace in the storage -/

/-- What a write of a transaction does when no call fails. -/
def applied (s : Lsm) : BatchOperation → Lsm
  | .put key value => ((s.advance 1).write key (some value) s.nextTs).settle
  | .delete key => (s.advance 1).write key none s.nextTs

theorem exec_applyWrite (s : Lsm) (op : BatchOperation) :
    exec (MvccEngine.applyWrite noFaults op) s = (.ok (), s.applied op) := by
  cases op with
  | put key value => exact exec_put s key value
  | delete key => exact exec_delete s key

/-- There is another table, or the log is longer. -/
def Grown (s s' : Lsm) : Prop :=
  (s.levels 0).length < (s'.levels 0).length ∨
    s'.levels = s.levels ∧ s'.wal.id = s.wal.id ∧
      (s.walRecords s.wal.id).length < (s'.walRecords s.wal.id).length

theorem Grown.trans {s s' s'' : Lsm} (h : s.Grown s') (h' : s'.Grown s'') : s.Grown s'' := by
  rcases h with htables | ⟨hlevels, hid, hlog⟩
  · rcases h' with htables' | ⟨hlevels', _, _⟩
    · exact Or.inl (htables.trans htables')
    · rw [← hlevels'] at htables
      exact Or.inl htables
  · rcases h' with htables' | ⟨hlevels', hid', hlog'⟩
    · rw [hlevels] at htables'
      exact Or.inl htables'
    · rw [hid] at hlog'
      exact Or.inr ⟨hlevels'.trans hlevels, hid'.trans hid, hlog.trans hlog'⟩

theorem grown_write (s : Lsm) (key : Bytes) (value : Option Bytes) (ts : ℕ) :
    s.Grown (s.write key value ts) := by
  refine Or.inr ⟨rfl, rfl, ?_⟩
  rw [walRecords_write_self, List.length_append]
  exact Nat.lt_succ_self _

theorem grown_rotate (s : Lsm) : s.Grown s.rotate := by
  refine Or.inl ?_
  rw [levels_rotate, Function.update_self, List.length_append]
  exact Nat.lt_succ_self _

theorem grown_applied (s : Lsm) (op : BatchOperation) : s.Grown (s.applied op) := by
  cases op with
  | put key value =>
      have hwrite := grown_write (s.advance 1) key (some value) s.nextTs
      show s.Grown (((s.advance 1).write key (some value) s.nextTs).settle)
      rw [settle]
      split
      · exact Grown.trans hwrite (grown_rotate _)
      · exact hwrite
  | delete key => exact grown_write (s.advance 1) key none s.nextTs

end Lsm

namespace MvccEngine

theorem exec_onStorage {α : Type} (act : Action Lsm α) (s : MvccEngine) :
    exec (onStorage act) s =
      ((exec act s.storage).1, { s with storage := (exec act s.storage).2 }) := rfl

/-- The loops over the write set fail with the storage only, and change nothing else. -/
theorem exec_applyWrites (faults : ℕ → Faults IoCall) (operations : List BatchOperation)
    (s : MvccEngine) :
    (∀ e, (exec (applyWrites faults operations) s).1 = .error e → e = .io) ∧
      ∃ storage, (exec (applyWrites faults operations) s).2 = { s with storage } := by
  induction operations generalizing faults s with
  | nil =>
      refine ⟨?_, s.storage, rfl⟩
      intro e herror
      contradiction
  | cons op rest ih =>
      have hfirst := exec_onStorage (applyWrite (faults 0) op) s
      rw [applyWrites]
      cases hwrite : exec (applyWrite (faults 0) op) s.storage with
      | mk result storage =>
          rw [hwrite] at hfirst
          cases result with
          | error e =>
              rw [exec_bind_error hfirst]
              refine ⟨?_, storage, rfl⟩
              intro e' herror
              apply Lsm.onlyIo_applyWrite (faults 0) op s.storage
              rw [hwrite]
              exact congrArg Except.error (Except.error.inj herror)
          | ok _ =>
              rw [exec_bind_ok hfirst]
              exact ih (fun n => faults (n + 1)) { s with storage }

theorem exec_applyWrites_noFaults (operations : List BatchOperation) (s : MvccEngine) :
    exec (applyWrites (fun _ => noFaults) operations) s =
      (.ok (), { s with storage := operations.foldl Lsm.applied s.storage }) := by
  induction operations generalizing s with
  | nil => rfl
  | cons op rest ih =>
      have hfirst := exec_onStorage (applyWrite noFaults op) s
      rw [Lsm.exec_applyWrite] at hfirst
      rw [applyWrites, exec_bind_ok hfirst, ih]
      rfl

theorem grown_foldl_applied {operations : List BatchOperation} (hsome : operations ≠ [])
    (s : Lsm) : s.Grown (operations.foldl Lsm.applied s) := by
  induction operations generalizing s with
  | nil => contradiction
  | cons op rest ih =>
      rw [List.foldl_cons]
      by_cases hrest : rest = []
      · rw [hrest]
        exact Lsm.grown_applied s op
      · exact (Lsm.grown_applied s op).trans (ih hrest _)

/-! ## Traces -/

/-- What is stored and what is known of committed transactions is as it was. -/
structure NoTrace (before after : MvccEngine) : Prop where
  memtable : after.storage.memtable.iter = before.storage.memtable.iter
  immutableMemtables : after.storage.immutableMemtables = before.storage.immutableMemtables
  levels : after.storage.levels = before.storage.levels
  wals : ∀ walId, after.storage.walRecords walId = before.storage.walRecords walId
  ssiCommitted : ∀ commitTs, after.ssiManager.committedTxns.lookup commitTs =
    before.ssiManager.committedTxns.lookup commitTs
  writeIndex : ∀ hash, after.ssiManager.writeIndex.lookup hash =
    before.ssiManager.writeIndex.lookup hash
  committedTxns : after.txnManager.committedTxns = before.txnManager.committedTxns

/-- However the write set is iterated and whatever calls of the storage fail, a commit
that throws something else than an input/output error leaves no trace. -/
def FailsCleanly (s : MvccEngine) (txn : Transaction) (physical : ℕ) : Prop :=
  ∀ order faults e, (exec (commit order faults txn physical) s).1 = .error e → e ≠ .io →
    NoTrace s (exec (commit order faults txn physical) s).2

theorem not_noTrace_of_grown {before after : MvccEngine}
    (hgrown : before.storage.Grown after.storage) : ¬ NoTrace before after := by
  intro h
  rcases hgrown with htables | ⟨_, _, hlog⟩
  · rw [h.levels] at htables
    exact lt_irrefl _ htables
  · rw [h.wals] at hlog
    exact lt_irrefl _ hlog

/-! ## The part after the validations -/

theorem commit_inactive {m : TransactionManager} {txn : Transaction}
    (hinactive : txn.isActive = false) : m.commit txn = .error .transactionAborted := by
  unfold TransactionManager.commit
  rw [hinactive]
  rfl

theorem commit_active {m : TransactionManager} {txn : Transaction} {commitTs : ℕ}
    (hactive : txn.isActive = true) (hcommitTs : txn.commitTs = some commitTs) :
    ∃ committed, m.commit txn = .ok committed := by
  unfold TransactionManager.commit
  rw [hactive, hcommitTs]
  exact ⟨_, rfl⟩

/-- After a rejection by the transaction manager nothing is done. -/
theorem exec_applyCommit_rejected {s : MvccEngine} {txn : Transaction} {commitTs : ℕ} {e : Error}
    (hrejected : s.txnManager.prepareCommit txn commitTs = .error e) (order : IterOrder)
    (faults : ℕ → Faults IoCall) :
    exec (applyCommit order faults txn commitTs) s = (.error e, s) := by
  have hprepare : exec (prepareCommit txn commitTs) s = (.error e, s) := by
    rw [exec_prepareCommit, hrejected]
  exact exec_bind_error hprepare _

/-- A prepared transaction is committed unless the storage fails or it is not active, and
up to then only the storage and the transaction have changed. -/
theorem exec_applyCommit_prepared {s : MvccEngine} {txn txn' : Transaction} {commitTs : ℕ}
    (hprepared : s.txnManager.prepareCommit txn commitTs = .ok txn') (order : IterOrder)
    (faults : ℕ → Faults IoCall) {e : Error}
    (herror : (exec (applyCommit order faults txn commitTs) s).1 = .error e) (hio : e ≠ .io) :
    txn.isActive = false ∧ ∃ storage,
      (exec (applyCommit order faults txn commitTs) s).2 = { s with storage }.setTxn txn' ∧
      (txn.writeSet.writeKeys = [] → storage = s.storage) := by
  have hprepare : exec (prepareCommit txn commitTs) s = (.ok txn', s.setTxn txn') := by
    rw [exec_prepareCommit, hprepared]
  have htxn' := TransactionManager.prepareCommit_ok hprepared
  have hrun : exec (applyCommit order faults txn commitTs) s =
      exec (applyWrites faults (order.operations txn'.writeSet) >>= fun _ => managerCommit txn')
        (s.setTxn txn') := exec_bind_ok hprepare _
  rw [hrun] at herror ⊢
  obtain ⟨hfailure, storage, hstorage⟩ :=
    exec_applyWrites faults (order.operations txn'.writeSet) (s.setTxn txn')
  cases hwrites : exec (applyWrites faults (order.operations txn'.writeSet)) (s.setTxn txn') with
  | mk result s' =>
      rw [hwrites] at hfailure hstorage
      cases result with
      | error e' =>
          rw [exec_bind_error hwrites] at herror
          -- an error in the loop is one of the storage
          exact absurd (hfailure e (congrArg Except.error (Except.error.inj herror))) hio
      | ok _ =>
          rw [exec_bind_ok hwrites, exec_managerCommit] at herror ⊢
          cases hactive : txn.isActive with
          | true =>
              have hactive' : txn'.isActive = true := by
                rw [htxn']
                exact hactive
              have hcommitTs : txn'.commitTs = some commitTs := by rw [htxn']
              obtain ⟨committed, hcommitted⟩ := commit_active (m := s'.txnManager) hactive' hcommitTs
              rw [hcommitted] at herror
              contradiction
          | false =>
              have hinactive : txn'.isActive = false := by
                rw [htxn']
                exact hactive
              rw [commit_inactive hinactive]
              refine ⟨rfl, storage, hstorage, ?_⟩
              intro hempty
              -- without writes the loop has left the storage alone
              have hnone : order.operations txn'.writeSet = [] := by
                rw [htxn']
                exact IterOrder.operations_eq_nil_iff.mpr hempty
              rw [hnone] at hwrites
              have hsame : s.setTxn txn' = s' := (Prod.mk.inj hwrites).2
              rw [← hsame] at hstorage
              exact (congrArg MvccEngine.storage hstorage).symm

/-- A transaction that is not active is found out after its writes have been made. -/
theorem exec_applyCommit_inactive {s : MvccEngine} {txn txn' : Transaction} {commitTs : ℕ}
    (hprepared : s.txnManager.prepareCommit txn commitTs = .ok txn')
    (hinactive : txn.isActive = false) (order : IterOrder) :
    exec (applyCommit order (fun _ => noFaults) txn commitTs) s =
      (.error .transactionAborted,
        { s with
          storage := (order.operations txn.writeSet).foldl Lsm.applied s.storage }.setTxn txn') := by
  have hprepare : exec (prepareCommit txn commitTs) s = (.ok txn', s.setTxn txn') := by
    rw [exec_prepareCommit, hprepared]
  have htxn' := TransactionManager.prepareCommit_ok hprepared
  have hinactive' : txn'.isActive = false := by
    rw [htxn']
    exact hinactive
  have hwriteSet : txn'.writeSet = txn.writeSet := by rw [htxn']
  have hwrites := exec_applyWrites_noFaults (order.operations txn'.writeSet) (s.setTxn txn')
  calc exec (applyCommit order (fun _ => noFaults) txn commitTs) s
      = exec (applyWrites (fun _ => noFaults) (order.operations txn'.writeSet) >>= fun _ =>
          managerCommit txn') (s.setTxn txn') := exec_bind_ok hprepare _
    _ = exec (managerCommit txn') { s.setTxn txn' with
          storage := (order.operations txn'.writeSet).foldl Lsm.applied (s.setTxn txn').storage } :=
        exec_bind_ok hwrites _
    _ = _ := by
        rw [exec_managerCommit, commit_inactive hinactive', hwriteSet]
        rfl

end MvccEngine

/-! ## The validation by the `SSIManager` -/

namespace SSIManager

/-- Publishing the set changes nothing: it has no writes, and the record it would leave
is there already. -/
def Republishes (s : SSIManager) (rw : ReadWriteSet) (txnId readTs commitTs : ℕ) : Prop :=
  rw.writeKeys = [] ∧ s.committedTxns.lookup commitTs =
    some ⟨(s.activeStartTs.lookup txnId).getD readTs, rw.readKeys, [], []⟩

theorem republishes_iff (s : SSIManager) (rw : ReadWriteSet) (txnId readTs commitTs : ℕ) :
    s.Republishes rw txnId readTs commitTs ↔
      (∀ ts, (s.publish rw txnId readTs commitTs []).committedTxns.lookup ts =
        s.committedTxns.lookup ts) ∧
      ∀ hash, (s.publish rw txnId readTs commitTs []).writeIndex.lookup hash =
        s.writeIndex.lookup hash := by
  have hpublished : (s.publish rw txnId readTs commitTs []).committedTxns =
      s.committedTxns.insert commitTs
        ⟨(s.activeStartTs.lookup txnId).getD readTs, rw.readKeys, rw.writeKeys, []⟩ := rfl
  constructor
  · intro ⟨hnone, hrecord⟩
    rw [hpublished, hnone]
    constructor
    · intro ts
      by_cases hts : ts = commitTs
      · rw [hts, AList.lookup_insert, hrecord]
      · rw [AList.lookup_insert_ne hts]
    · intro hash
      show AList.lookup hash (rw.writeKeys.foldl _ s.writeIndex) = _
      rw [hnone]
      rfl
  · intro ⟨hcommitted, hindex⟩
    have hnone : rw.writeKeys = [] := by
      apply List.eq_nil_iff_forall_not_mem.mpr
      intro hash hhash
      -- the entries of a key that was written are one more than before
      have hentries := s.writersOf_publish rw txnId readTs commitTs [] hash
      have hsame : (s.publish rw txnId readTs commitTs []).writersOf hash = s.writersOf hash :=
        congrArg (fun entries => entries.getD []) (hindex hash)
      rw [hsame] at hentries
      have hlength := congrArg List.length hentries
      rw [List.length_append, List.length_replicate] at hlength
      have hpos := List.count_pos_iff.mpr hhash
      omega
    refine ⟨hnone, ?_⟩
    have hrecord := hcommitted commitTs
    rw [hpublished, AList.lookup_insert, hnone] at hrecord
    exact hrecord.symm

/-- Only what the set has read and written matters. -/
theorem Republishes.congr {s s' : SSIManager} {rw rw' : ReadWriteSet} {txnId readTs commitTs : ℕ}
    (hcommitted : s'.committedTxns = s.committedTxns) (hstart : s'.activeStartTs = s.activeStartTs)
    (hread : rw'.readKeys = rw.readKeys) (hwritten : rw'.writeKeys = rw.writeKeys) :
    s'.Republishes rw' txnId readTs commitTs ↔ s.Republishes rw txnId readTs commitTs := by
  unfold Republishes
  rw [hcommitted, hstart, hread, hwritten]

theorem validateAndCommit_accepted {s : SSIManager} {txnId readTs commitTs : ℕ} {rw : ReadWriteSet}
    (hactive : s.activeTxns.lookup txnId = some rw)
    (haccepted : (s.checkConflicts rw txnId readTs commitTs).1 = .ok ()) :
    ∃ rw', rw'.readKeys = rw.readKeys ∧ rw'.writeKeys = rw.writeKeys ∧
      s.validateAndCommit txnId readTs commitTs =
        (.ok (), publish { s with activeTxns := s.activeTxns.insert txnId rw' } rw' txnId readTs
          commitTs []) := by
  obtain ⟨outbound, hrw⟩ := s.checkConflicts_snd rw txnId readTs commitTs
  refine ⟨(s.checkConflicts rw txnId readTs commitTs).2, by rw [hrw], by rw [hrw], ?_⟩
  unfold validateAndCommit validateAndCommitWithKeys
  rw [hactive]
  simp only [haccepted]

theorem validateAndCommit_rejected {s : SSIManager} {txnId readTs commitTs : ℕ} {rw : ReadWriteSet}
    {e : SSIConflict} (hactive : s.activeTxns.lookup txnId = some rw)
    (hrejected : (s.checkConflicts rw txnId readTs commitTs).1 = .error e) :
    s.validateAndCommit txnId readTs commitTs =
      (.error e, { s with activeTxns :=
        s.activeTxns.insert txnId (s.checkConflicts rw txnId readTs commitTs).2 }) := by
  unfold validateAndCommit validateAndCommitWithKeys
  rw [hactive]
  simp only [hrejected]

end SSIManager

/-! ## When a failed commit leaves no trace -/

namespace MvccEngine

/-- Where a commit may fail.  A snapshot transaction has to be active or without writes.
A serializable one that the `SSIManager` accepts has to pass the `TransactionManager` and
be active too, or else what it publishes has to be known and its writes to be none. -/
def SafeToFail (s : MvccEngine) (txn : Transaction) (physical : ℕ) : Prop :=
  let commitTs := (s.tsOracle.getTimestamp physical).1
  match txn.isolation with
  | .snapshot => txn.isActive = true ∨ txn.writeSet.writeKeys = []
  | .serializable =>
      ∀ rw, s.ssiManager.activeTxns.lookup txn.id = some rw →
        (s.ssiManager.checkConflicts rw txn.id txn.startTs commitTs).1 = .ok () →
        (s.txnManager.validateSerializable txn commitTs = .ok () ∧ txn.isActive = true) ∨
          s.ssiManager.Republishes rw txn.id txn.startTs commitTs ∧
            (s.txnManager.validateSerializable txn commitTs = .ok () →
              txn.writeSet.writeKeys = [])
  | .serializableReadOnly => True
  | .serializableDeferrable => True

/-- The engine once `commit` has drawn its timestamp. -/
def drawn (s : MvccEngine) (physical : ℕ) : MvccEngine :=
  { s with tsOracle := (s.tsOracle.getTimestamp physical).2 }

theorem exec_commit_readOnly (s : MvccEngine) {txn : Transaction} (physical : ℕ)
    (hreadOnly : txn.isolation.isReadOnly = true) (order : IterOrder)
    (faults : ℕ → Faults IoCall) :
    exec (commit order faults txn physical) s = exec (commitReadOnly txn) (s.drawn physical) := by
  have hcommit : exec (commit order faults txn physical) s =
      exec (if txn.isolation.isReadOnly then commitReadOnly txn
        else validateSsi txn (s.tsOracle.getTimestamp physical).1 >>= fun _ =>
          applyCommit order faults txn (s.tsOracle.getTimestamp physical).1) (s.drawn physical) := rfl
  rw [hcommit, if_pos hreadOnly]

theorem exec_commit_write (s : MvccEngine) {txn : Transaction} (physical : ℕ)
    (hwrite : ¬ txn.isolation.isReadOnly = true) (order : IterOrder) (faults : ℕ → Faults IoCall) :
    exec (commit order faults txn physical) s =
      exec (validateSsi txn (s.tsOracle.getTimestamp physical).1 >>= fun _ =>
        applyCommit order faults txn (s.tsOracle.getTimestamp physical).1) (s.drawn physical) := by
  have hcommit : exec (commit order faults txn physical) s =
      exec (if txn.isolation.isReadOnly then commitReadOnly txn
        else validateSsi txn (s.tsOracle.getTimestamp physical).1 >>= fun _ =>
          applyCommit order faults txn (s.tsOracle.getTimestamp physical).1) (s.drawn physical) := rfl
  rw [hcommit, if_neg hwrite]

/-- A read-only transaction that cannot be committed is left alone. -/
theorem failsCleanly_readOnly (s : MvccEngine) {txn : Transaction} (physical : ℕ)
    (hreadOnly : txn.isolation.isReadOnly = true) : s.FailsCleanly txn physical := by
  intro order faults e herror _
  rw [exec_commit_readOnly s physical hreadOnly] at herror ⊢
  have hmanager := exec_managerCommit (s.drawn physical) txn
  cases hcommit : (s.drawn physical).txnManager.commit txn with
  | error e' =>
      rw [hcommit] at hmanager
      have hresult : exec (commitReadOnly txn) (s.drawn physical) = (.error e', s.drawn physical) :=
        exec_bind_error hmanager _
      rw [hresult]
      exact ⟨rfl, rfl, rfl, fun _ => rfl, fun _ => rfl, fun _ => rfl, rfl⟩
  | ok committed =>
      rw [hcommit] at hmanager
      unfold commitReadOnly at herror
      rw [exec_bind_ok hmanager] at herror
      contradiction

/-- No trace is left by what comes after the validation of the `SSIManager`, which has
turned `s` into `s'`. -/
def AppliesCleanly (s s' : MvccEngine) (txn : Transaction) (commitTs : ℕ) : Prop :=
  ∀ order faults e, (exec (applyCommit order faults txn commitTs) s').1 = .error e → e ≠ .io →
    NoTrace s (exec (applyCommit order faults txn commitTs) s').2

theorem appliesCleanly_rejected {s s' : MvccEngine} {txn : Transaction} {commitTs : ℕ}
    (hrejected : s'.txnManager.prepareCommit txn commitTs = .error .transactionConflict) :
    AppliesCleanly s s' txn commitTs ↔ NoTrace s s' := by
  constructor
  · intro h
    have hclean := h .inserted (fun _ => noFaults) .transactionConflict
    rw [exec_applyCommit_rejected hrejected] at hclean
    exact hclean rfl (by decide)
  · intro h order faults e _ _
    rw [exec_applyCommit_rejected hrejected]
    exact h

theorem appliesCleanly_prepared {s s' : MvccEngine} {txn txn' : Transaction} {commitTs : ℕ}
    (hstorage : s'.storage = s.storage)
    (hprepared : s'.txnManager.prepareCommit txn commitTs = .ok txn') :
    AppliesCleanly s s' txn commitTs ↔
      txn.isActive = true ∨ NoTrace s s' ∧ txn.writeSet.writeKeys = [] := by
  constructor
  · intro h
    by_cases hactive : txn.isActive = true
    · exact Or.inl hactive
    · have hinactive : txn.isActive = false := Bool.eq_false_iff.mpr hactive
      have hclean := h .inserted (fun _ => noFaults) .transactionAborted
      rw [exec_applyCommit_inactive hprepared hinactive] at hclean
      have htrace := hclean rfl (by decide)
      -- the first write would have grown the log
      have hnone : txn.writeSet.writeKeys = [] := by
        by_contra hsome
        have hwrites : IterOrder.inserted.operations txn.writeSet ≠ [] :=
          fun hnil => hsome (IterOrder.operations_eq_nil_iff.mp hnil)
        have hgrown := grown_foldl_applied hwrites s'.storage
        rw [hstorage] at hgrown htrace
        exact not_noTrace_of_grown hgrown htrace
      have hnil : IterOrder.inserted.operations txn.writeSet = [] :=
        IterOrder.operations_eq_nil_iff.mpr hnone
      rw [hnil] at htrace
      exact Or.inr ⟨⟨htrace.memtable, htrace.immutableMemtables, htrace.levels, htrace.wals,
        htrace.ssiCommitted, htrace.writeIndex, htrace.committedTxns⟩, hnone⟩
  · intro h order faults e herror hio
    obtain ⟨hinactive, storage, hafter, hsame⟩ :=
      exec_applyCommit_prepared hprepared order faults herror hio
    -- an active transaction does not fail once it is prepared
    rcases h with hactive | ⟨htrace, hnone⟩
    · rw [hactive] at hinactive
      contradiction
    · rw [hafter, hsame hnone]
      exact ⟨htrace.memtable, htrace.immutableMemtables, htrace.levels, htrace.wals,
        htrace.ssiCommitted, htrace.writeIndex, htrace.committedTxns⟩

theorem noTrace_drawn (s : MvccEngine) (physical : ℕ) : NoTrace s (s.drawn physical) :=
  ⟨rfl, rfl, rfl, fun _ => rfl, fun _ => rfl, fun _ => rfl, rfl⟩

theorem prepareCommit_snapshot (m : TransactionManager) {txn : Transaction} (commitTs : ℕ)
    (hother : txn.isolation ≠ .serializable) :
    m.prepareCommit txn commitTs = .ok { txn with commitTs := some commitTs } :=
  if_neg hother

theorem prepareCommit_serializable (m : TransactionManager) {txn : Transaction} (commitTs : ℕ)
    (hserializable : txn.isolation = .serializable) :
    (m.validateSerializable txn commitTs = .ok () ∧
      m.prepareCommit txn commitTs = .ok { txn with commitTs := some commitTs }) ∨
    (m.validateSerializable txn commitTs ≠ .ok () ∧
      m.prepareCommit txn commitTs = .error .transactionConflict) := by
  unfold TransactionManager.prepareCommit
  rw [if_pos hserializable]
  unfold TransactionManager.validateSerializable
  split
  · exact Or.inr ⟨by simp, rfl⟩
  · exact Or.inl ⟨rfl, rfl⟩

theorem failsCleanly_snapshot_iff (s : MvccEngine) {txn : Transaction} (physical : ℕ)
    (hsnapshot : txn.isolation = .snapshot) :
    s.FailsCleanly txn physical ↔ txn.isActive = true ∨ txn.writeSet.writeKeys = [] := by
  have hwrite : ¬ txn.isolation.isReadOnly = true := by
    rw [hsnapshot]
    exact Bool.false_ne_true
  have hother : txn.isolation ≠ .serializable := by
    rw [hsnapshot]
    exact IsolationLevel.noConfusion
  have happlies : s.FailsCleanly txn physical ↔
      AppliesCleanly s (s.drawn physical) txn (s.tsOracle.getTimestamp physical).1 := by
    refine forall₂_congr fun order faults => ?_
    rw [exec_commit_write s physical hwrite,
      exec_bind_ok (exec_validateSsi_of_ne (s.drawn physical) _ hother)]
  have hprepared := prepareCommit_snapshot (s.drawn physical).txnManager
    (s.tsOracle.getTimestamp physical).1 hother
  have hstorage : (s.drawn physical).storage = s.storage := rfl
  rw [happlies, appliesCleanly_prepared hstorage hprepared]
  exact or_congr_right (and_iff_right (noTrace_drawn s physical))

/-- A serializable transaction that the `SSIManager` rejects leaves no trace. -/
theorem failsCleanly_of_ssi_error (s : MvccEngine) {txn : Transaction} (physical : ℕ)
    (hserializable : txn.isolation = .serializable) {e : SSIConflict} {ssiManager : SSIManager}
    (hrejected : s.ssiManager.validateAndCommit txn.id txn.startTs
      (s.tsOracle.getTimestamp physical).1 = (.error e, ssiManager))
    (hcommitted : ssiManager.committedTxns = s.ssiManager.committedTxns)
    (hindex : ssiManager.writeIndex = s.ssiManager.writeIndex) : s.FailsCleanly txn physical := by
  have hwrite : ¬ txn.isolation.isReadOnly = true := by
    rw [hserializable]
    exact Bool.false_ne_true
  have hvalidate : exec (validateSsi txn (s.tsOracle.getTimestamp physical).1) (s.drawn physical) =
      (.error (ssiErrorToCommon e), { s.drawn physical with ssiManager }) := by
    rw [exec_validateSsi _ _ hserializable]
    show (Except.mapError ssiErrorToCommon (s.ssiManager.validateAndCommit txn.id txn.startTs
      (s.tsOracle.getTimestamp physical).1).1, _) = _
    rw [show (s.drawn physical).ssiManager = s.ssiManager from rfl, hrejected]
    rfl
  intro order faults e' _ _
  rw [exec_commit_write s physical hwrite, exec_bind_error hvalidate]
  exact ⟨rfl, rfl, rfl, fun _ => rfl, fun _ => congrArg _ hcommitted, fun _ => congrArg _ hindex,
    rfl⟩

/-- The conflict check lets the transaction through: its commit is published, and what follows
fails cleanly only if it cannot fail or has been published before. -/
theorem failsCleanly_accepted_iff (s : MvccEngine) {txn : Transaction} (physical : ℕ)
    (hserializable : txn.isolation = .serializable) {commitTs : ℕ}
    (hcommitTs : (s.tsOracle.getTimestamp physical).1 = commitTs) {rw : ReadWriteSet}
    (hactive : s.ssiManager.activeTxns.lookup txn.id = some rw)
    (hchecked : (s.ssiManager.checkConflicts rw txn.id txn.startTs commitTs).1 = .ok ()) :
    s.FailsCleanly txn physical ↔
      (s.txnManager.validateSerializable txn commitTs = .ok () ∧ txn.isActive = true) ∨
        s.ssiManager.Republishes rw txn.id txn.startTs commitTs ∧
          (s.txnManager.validateSerializable txn commitTs = .ok () →
            txn.writeSet.writeKeys = []) := by
  have hwrite : ¬ txn.isolation.isReadOnly = true := by
    rw [hserializable]
    exact Bool.false_ne_true
  obtain ⟨rw', hread, hwritten, haccepted⟩ :=
    SSIManager.validateAndCommit_accepted hactive hchecked
  generalize hs' : SSIManager.publish _ rw' txn.id txn.startTs commitTs [] = ssiManager
    at haccepted
  have hvalidate : exec (validateSsi txn commitTs) (s.drawn physical) =
      (.ok (), { s.drawn physical with ssiManager }) := by
    rw [exec_validateSsi _ _ hserializable,
      show (s.drawn physical).ssiManager = s.ssiManager from rfl, haccepted]
    rfl
  have happlies : s.FailsCleanly txn physical ↔
      AppliesCleanly s { s.drawn physical with ssiManager } txn commitTs := by
    refine forall₂_congr fun order faults => ?_
    rw [exec_commit_write s physical hwrite, hcommitTs, exec_bind_ok hvalidate]
  have hsame : ({ s.ssiManager with
      activeTxns := s.ssiManager.activeTxns.insert txn.id rw' } : SSIManager).Republishes
        rw' txn.id txn.startTs commitTs ↔
      s.ssiManager.Republishes rw txn.id txn.startTs commitTs := by
    apply SSIManager.Republishes.congr
    · rfl
    · rfl
    · exact hread
    · exact hwritten
  have htrace : NoTrace s { s.drawn physical with ssiManager } ↔
      s.ssiManager.Republishes rw txn.id txn.startTs commitTs := by
    rw [← hsame, SSIManager.republishes_iff, hs']
    exact ⟨fun h => ⟨h.ssiCommitted, h.writeIndex⟩, fun h =>
      ⟨rfl, rfl, rfl, fun _ => rfl, h.1, h.2, rfl⟩⟩
  -- the validation has changed neither the storage nor the transaction manager
  have hstorage : ({ s.drawn physical with ssiManager } : MvccEngine).storage = s.storage := rfl
  have hmanager : ({ s.drawn physical with ssiManager } : MvccEngine).txnManager =
      s.txnManager := rfl
  rw [happlies]
  rcases prepareCommit_serializable s.txnManager commitTs hserializable with
    ⟨hvalid, hprepared⟩ | ⟨hinvalid, hrejected⟩
  · rw [← hmanager] at hprepared
    rw [appliesCleanly_prepared hstorage hprepared, htrace]
    simp only [hvalid, true_and, forall_const]
  · rw [← hmanager] at hrejected
    rw [appliesCleanly_rejected hrejected, htrace]
    simp only [hinvalid, false_and, false_or, false_implies, and_true]

theorem failsCleanly_serializable_iff (s : MvccEngine) {txn : Transaction} (physical : ℕ)
    (hserializable : txn.isolation = .serializable) :
    s.FailsCleanly txn physical ↔
      ∀ rw, s.ssiManager.activeTxns.lookup txn.id = some rw →
        (s.ssiManager.checkConflicts rw txn.id txn.startTs
          (s.tsOracle.getTimestamp physical).1).1 = .ok () →
        (s.txnManager.validateSerializable txn (s.tsOracle.getTimestamp physical).1 = .ok () ∧
          txn.isActive = true) ∨
          s.ssiManager.Republishes rw txn.id txn.startTs (s.tsOracle.getTimestamp physical).1 ∧
            (s.txnManager.validateSerializable txn (s.tsOracle.getTimestamp physical).1 = .ok () →
              txn.writeSet.writeKeys = []) := by
  generalize hcommitTs : (s.tsOracle.getTimestamp physical).1 = commitTs
  cases hactive : s.ssiManager.activeTxns.lookup txn.id with
  | none =>
      -- without an entry the validation fails at its first look
      have hrejected : s.ssiManager.validateAndCommit txn.id txn.startTs commitTs =
          (.error .txnNotFound, s.ssiManager) := by
        unfold SSIManager.validateAndCommit SSIManager.validateAndCommitWithKeys
        rw [hactive]
      rw [← hcommitTs] at hrejected
      refine iff_of_true (failsCleanly_of_ssi_error s physical hserializable hrejected rfl rfl) ?_
      intro rw hrw
      contradiction
  | some rw =>
      cases hchecked : (s.ssiManager.checkConflicts rw txn.id txn.startTs commitTs).1 with
      | error e =>
          have hrejected := SSIManager.validateAndCommit_rejected hactive hchecked
          rw [← hcommitTs] at hrejected
          refine iff_of_true (failsCleanly_of_ssi_error s physical hserializable hrejected rfl rfl) ?_
          intro rw' hrw' haccepted
          rw [← Option.some.inj hrw', hchecked] at haccepted
          contradiction
      | ok _ =>
          rw [failsCleanly_accepted_iff s physical hserializable hcommitTs hactive hchecked]
          constructor
          · intro h rw' hrw' _
            rw [← Option.some.inj hrw']
            exact h
          · intro h
            exact h rw rfl hchecked

/-- For every state of the engine, transaction and reading of the clock: a failed commit
leaves no trace, whatever else is left to chance, exactly if it is safe to fail. -/
theorem failsCleanly_iff (s : MvccEngine) (txn : Transaction) (physical : ℕ) :
    s.FailsCleanly txn physical ↔ s.SafeToFail txn physical := by
  unfold SafeToFail
  cases hisolation : txn.isolation with
  | snapshot => exact failsCleanly_snapshot_iff s physical hisolation
  | serializable => exact failsCleanly_serializable_iff s physical hisolation
  | serializableReadOnly =>
      refine iff_of_true (failsCleanly_readOnly s physical ?_) trivial
      rw [hisolation]
      rfl
  | serializableDeferrable =>
      refine iff_of_true (failsCleanly_readOnly s physical ?_) trivial
      rw [hisolation]
      rfl

/-- A transaction that puts one key and is committed. -/
def committedOnce : MvccEngine :=
  (Run.run (MvccSystem.step fun _ => 0) (MvccSystem.init (Lsm.openDir 100 Dir.empty))
    ([.drawStartTs .snapshot 1 false, .begin 1, .put 1 [7] [1] (.ok ()), .startCommit 1 2] ++
      List.replicate 5 (.continueCommit 1 .inserted))).engine

/-- The transaction that has been committed. -/
def committedTxn : Transaction := (committedOnce.txns.lookup 1).get (by decide +kernel)

/-- Committed once more, the transaction puts its key once more and is told that it is
aborted. -/
theorem not_failsCleanly :
    ¬ ∀ (hashKey : Bytes → UInt64) (s : MvccEngine) (txnId : ℕ) (txn : Transaction) (physical : ℕ),
      MvccSystem.Reachable hashKey s → s.txns.lookup txnId = some txn →
        s.FailsCleanly txn physical := by
  intro h
  have hreachable : MvccSystem.Reachable (fun _ => 0) committedOnce :=
    ⟨_, _, ⟨100, [], rfl⟩, rfl⟩
  have hlookup : committedOnce.txns.lookup 1 = some committedTxn := (Option.some_get _).symm
  have hclean := h _ committedOnce 1 committedTxn 3 hreachable hlookup .inserted
    (fun _ => noFaults) .transactionAborted (by decide +kernel) (by decide)
  exact absurd hclean.memtable (by decide +kernel)

end MvccEngine
end Crabstash

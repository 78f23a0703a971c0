import Crabstash.Storage.Durability
import Crabstash.Txn.SerialStore

/-!
# A restart under the locks

What a restart restores depends on the order of the records in the logs: of the records of one
key the newest must be the last to be written, for the memtable that the replay builds shows the
newest one.  Two threads that write a key directly do not keep to this, and neither does a
session that begins with timestamps that an earlier one has used.

Under the locks there is nothing to ask for.  All that has been logged on a key is older than a
timestamp that a commit has drawn for a write of the key, and so it stays until the write is
there, for nobody else writes the key.  In a database that is new, what a successful sync leaves
on the disk is then the store of the committed transactions (`reopened_run`).  This is so from
the first rotation of the memtable on.  Before it, the log of the session is not in the manifest,
and the next open empties it.
-/

namespace Crabstash

open Crabstash.Action

namespace Lsm

/-! ## What has been logged -/

/-- The records of all logs that are listed, and of the log of the session. -/
def loggedRecords (s : Lsm) : List WalRecord := s.listedRecords ++ s.walRecords s.wal.id

/-- A database that is new, or has listed all the logs that it has written. -/
structure FirstSession (s : Lsm) : Prop where
  durable : s.Durable
  drawn : ∀ record ∈ s.loggedRecords, record.timestamp < s.nextTs
  records : ¬ s.Listed → s.listedRecords = []
  levels : ¬ s.Listed → s.levels = fun _ => []

theorem firstSession_empty (memtableSize : ℕ) :
    (openDir memtableSize Dir.empty).FirstSession where
  durable := durable_openDir memtableSize Dir.empty
  drawn := fun _ hrecord => absurd hrecord List.not_mem_nil
  records := fun _ => rfl
  levels := fun _ => rfl

/-- All that has been logged on the key is older. -/
def LoggedBefore (s : Lsm) (key : Bytes) (ts : ℕ) : Prop :=
  ∀ record ∈ s.loggedRecords, record.key = key → record.timestamp < ts

section

variable {s : Lsm} {key : Bytes} {ts : ℕ} {record : WalRecord}

theorem mem_loggedRecords_write (h : s.OnDisk) {value : Option Bytes}
    (hrecord : record ∈ (s.write key value ts).loggedRecords) :
    record = .ofWrite key value ts ∨ record ∈ s.loggedRecords := by
  have hself : (s.write key value ts).walRecords (s.write key value ts).wal.id =
      s.walRecords s.wal.id ++ [.ofWrite key value ts] := walRecords_write_self s key value ts
  rw [loggedRecords, hself] at hrecord
  rw [loggedRecords]
  by_cases hlisted : s.Listed
  · rw [h.listedRecords_write hlisted] at hrecord
    simp only [List.mem_append, List.mem_singleton] at hrecord ⊢
    grind
  · rw [listedRecords_write_of_not_listed hlisted] at hrecord
    simp only [List.mem_append, List.mem_singleton] at hrecord ⊢
    grind

/-- The log that a rotation makes has no records. -/
theorem loggedRecords_rotate (h : s.OnDisk) : s.rotate.loggedRecords = s.listedRecords := by
  have hself : s.rotate.walRecords s.rotate.wal.id = [] := by
    simp [walRecords, rotate, flushMemtable, switchWal, logLine, Wal.create]
  rw [loggedRecords, hself, h.listedRecords_rotate, List.append_nil]

theorem listed_rotate (s : Lsm) : s.rotate.Listed := by
  have hnext : s.rotate.manifest.nextWalId = s.manifest.nextWalId + 1 := nextWalId_switchWal s
  rw [Listed, hnext]
  exact Nat.lt_succ_self _

theorem FirstSession.advance (h : s.FirstSession) (count : ℕ) : (s.advance count).FirstSession where
  durable := h.durable.advance count
  drawn := fun record hrecord => Nat.lt_add_right count (h.drawn record hrecord)
  records := h.records
  levels := h.levels

theorem FirstSession.writeKept (h : s.FirstSession) (hbefore : s.LoggedBefore key ts) :
    s.WriteKept key ts := by
  constructor
  · intro _ record hrecord hkey
    exact (hbefore record (List.mem_append_left _ hrecord) hkey).le
  · intro hnot record hrecord
    rw [h.records hnot] at hrecord
    exact absurd hrecord List.not_mem_nil

theorem FirstSession.write (h : s.FirstSession) (hts : ts < s.nextTs)
    (hbefore : s.LoggedBefore key ts) (value : Option Bytes) :
    (s.write key value ts).FirstSession where
  durable := h.durable.write (h.writeKept hbefore) value
  drawn := by
    intro record hrecord
    rcases mem_loggedRecords_write h.durable.onDisk hrecord with rfl | hrecord
    · exact hts
    · exact h.drawn record hrecord
  records := by
    intro hnot
    have hnot' : ¬ s.Listed := hnot
    rw [listedRecords_write_of_not_listed hnot', h.records hnot']
  levels := h.levels

theorem FirstSession.rotate (h : s.FirstSession) (hsafe : ∀ key, s.FlushSafe key) :
    s.rotate.FirstSession where
  durable := h.durable.rotate fun record _ => hsafe record.key
  drawn := by
    intro record hrecord
    rw [loggedRecords_rotate h.durable.onDisk] at hrecord
    exact h.drawn record (List.mem_append_left _ hrecord)
  records := fun hnot => absurd (listed_rotate s) hnot
  levels := fun hnot => absurd (listed_rotate s) hnot

variable {op : BatchOperation}

theorem FirstSession.land (h : s.FirstSession) (hts : ts < s.nextTs)
    (hbefore : s.LoggedBefore op.key ts) (hsafe : s.SafeLanding ts op) :
    (s.land ts op).FirstSession := by
  have hwrite := h.write hts hbefore op.effect
  rcases land_cases hsafe with hland | ⟨hland, hflush⟩
  · rw [hland]
    exact hwrite
  · rw [hland]
    exact hwrite.rotate hflush

theorem mem_loggedRecords_land (h : s.OnDisk) (hsafe : s.SafeLanding ts op)
    (hrecord : record ∈ (s.land ts op).loggedRecords) :
    record = .ofWrite op.key op.effect ts ∨ record ∈ s.loggedRecords := by
  rcases land_cases hsafe with hland | ⟨hland, -⟩
  · rw [hland] at hrecord
    exact mem_loggedRecords_write h hrecord
  · rw [hland, loggedRecords_rotate (h.write op.key op.effect ts)] at hrecord
    exact mem_loggedRecords_write h (List.mem_append_left _ hrecord)

/-- The write of another key. -/
theorem LoggedBefore.land (hbefore : s.LoggedBefore key ts) (h : s.OnDisk) {ts' : ℕ}
    (hsafe : s.SafeLanding ts' op) (hne : key ≠ op.key) : (s.land ts' op).LoggedBefore key ts := by
  intro record hrecord hkey
  rcases mem_loggedRecords_land h hsafe hrecord with rfl | hrecord
  · exact absurd hkey.symm hne
  · exact hbefore record hrecord hkey

/-! ## The next open -/

/-- What the database shows when it is opened again after a sync. -/
theorem OnDisk.newest_reopened (h : s.OnDisk) (survive memtableSize : ℕ) (key : Bytes) :
    (openDir memtableSize (s.flushWal.endSession survive)).newest key =
      (s.recovered.newest key).getD (probe s.levels key) := by
  have himm : (openDir memtableSize (s.flushWal.endSession survive)).immutableMemtables = [] := rfl
  rw [newest_eq himm, h.recovered_reopen, h.levels_reopen]

/-- A key that the replay does not find is not in the memtable either. -/
theorem Durable.absent (h : s.Durable) (hlisted : s.Listed)
    (hnone : s.recovered.newest key = none) : s.memtable.newest key = none := by
  rw [MemTable.newest_eq_none_iff] at hnone ⊢
  intro e he hkey
  obtain ⟨record, hrecord, hversion⟩ := h.memtable e he
  have hmem : record ∈ s.listedRecords := by
    rcases List.mem_append.mp hrecord with hrecord | hrecord
    · exact hrecord
    · exact h.onDisk.walRecords_subset hlisted hrecord
  obtain ⟨e', he', heq⟩ := exists_mem_recovered.mpr ⟨record, hmem, hversion⟩
  exact hnone e' he' (heq ▸ hkey)

theorem Durable.newest_reopened (h : s.Durable) (hlisted : s.Listed)
    (survive memtableSize : ℕ) (key : Bytes) :
    (openDir memtableSize (s.flushWal.endSession survive)).newest key = s.newest key := by
  rw [h.onDisk.newest_reopened]
  cases hvalue : s.recovered.newest key with
  | some value => exact (h.newest key value hvalue).symm
  | none => rw [newest_eq h.onDisk.immutableMemtables, h.absent hlisted hvalue]

/-- Nothing is left of a session that has not rotated its memtable. -/
theorem FirstSession.newest_reopened (h : s.FirstSession) (hnot : ¬ s.Listed)
    (survive memtableSize : ℕ) (key : Bytes) :
    (openDir memtableSize (s.flushWal.endSession survive)).newest key = none := by
  have hrecovered : s.recovered = MemTable.new := by
    rw [recovered, h.records hnot]
    rfl
  rw [h.durable.onDisk.newest_reopened, hrecovered, h.levels hnot]
  rfl

theorem exec_sync_ok {faults : Faults IoCall} (hsync : (exec (sync faults) s).1 = .ok ()) :
    (exec (sync faults) s).2 = s.flushWal := by
  cases hfault : faults .walSync with
  | true => simp [sync, attempt, exec, hfault] at hsync
  | false =>
      simp only [sync, attempt, hfault]
      rfl

end

end Lsm

/-! ## Commits under way -/

/-- A result that is mapped to one value is this value. -/
theorem MvccEngine.map_const_ne {α β : Type} (result : Except Error α) {x y : β} (hne : x ≠ y) :
    (result.map fun _ => x) ≠ .ok y := by
  cases result with
  | error e => exact fun h => by contradiction
  | ok a => exact fun h => hne (Except.ok.inj h)

/-- What a step of a commit does to the storage. -/
inductive StorageEffect (s : Lsm) :
    CommitProgress → Except Error (Option CommitProgress) → Lsm → Prop
  | keeps {progress : CommitProgress} {result : Except Error (Option CommitProgress)}
      (hquiet : ∀ ts op todo, result ≠ .ok (some (.writing ts op todo))) :
      StorageEffect s progress result s
  | draws (op : BatchOperation) (todo : List BatchOperation) :
      StorageEffect s (.applying (op :: todo)) (.ok (some (.writing s.nextTs op todo)))
        (s.advance 1)
  | lands (ts : ℕ) (op : BatchOperation) (todo : List BatchOperation) :
      StorageEffect s (.writing ts op todo) (.ok (some (.applying todo))) (s.land ts op)

theorem commitStep_storage (order : IterOrder) (s : MvccEngine) (txn : Transaction)
    (progress : CommitProgress) :
    StorageEffect s.storage progress (exec (commitStep noFaults order txn progress) s).1
      (exec (commitStep noFaults order txn progress) s).2.storage := by
  have hpart := commitStep_part noFaults order s txn progress
  generalize exec (commitStep noFaults order txn progress) s = result at hpart
  cases hpart with
  | readOnly commitTs hreadOnly =>
      rw [(MvccEngine.touches_commitReadOnly s txn).storage]
      exact .keeps fun _ _ _ => MvccEngine.map_const_ne _ (by simp)
  | validates commitTs hserializable =>
      rw [(MvccEngine.touches_validateSsi s txn commitTs).storage]
      exact .keeps fun _ _ _ => MvccEngine.map_const_ne _ (by simp)
  | skips commitTs hwritable hother => exact .keeps (by simp)
  | prepares commitTs hprepared => exact .keeps (by simp)
  | refuses commitTs hrefused => exact .keeps (by simp)
  | finishes =>
      rw [(MvccEngine.touches_managerCommit s txn).storage]
      exact .keeps fun _ _ _ => MvccEngine.map_const_ne _ (by simp)
  | draws op todo => exact .draws op todo
  | writes ts op todo =>
      rw [Lsm.exec_writeAt]
      exact .lands ts op todo

namespace SerialHistory

/-- Nothing has been logged on the key of a write since its timestamp was drawn. -/
structure Logged (h : SerialHistory) : Prop where
  session : h.system.engine.storage.FirstSession
  before : ∀ txnId txn ts op todo,
    h.system.committing txnId = some (txn, .writing ts op todo) →
      h.system.engine.storage.LoggedBefore op.key ts

theorem logged_init (memtableSize : ℕ) (config : LockConfig) :
    (init memtableSize config).Logged where
  session := Lsm.firstSession_empty memtableSize
  before := by
    intro txnId txn ts op todo hcommitting
    contradiction

section

variable {h h' : SerialHistory} {txn : Transaction} {progress : CommitProgress}
  {result : Except Error (Option CommitProgress) × MvccEngine}

/-- The commits of the others are where they were. -/
theorem Continues.before (hcontinues : Continues h h' txn result) (hlogged : h.Logged)
    {other : ℕ} (hne : other ≠ txn.id) {txn' : Transaction} {ts : ℕ} {op : BatchOperation}
    {todo : List BatchOperation}
    (hcommitting : h'.system.committing other = some (txn', .writing ts op todo)) :
    h.system.engine.storage.LoggedBefore op.key ts :=
  hlogged.before other txn' ts op todo (hcontinues.others other hne ▸ hcommitting)

/-- A step of a commit. -/
theorem Continues.logged (hcontinues : Continues h h' txn result) (hturn : h.InTurn)
    (hlogged : h.Logged) (hcommitting : h.system.committing txn.id = some (txn, progress))
    (hsafe : progress.Safe h.system.engine.storage)
    (heffect : StorageEffect h.system.engine.storage progress result.1 result.2.storage) :
    h'.Logged := by
  have hengine := hcontinues.engine
  obtain ⟨verdict, engine⟩ := result
  obtain ⟨storage, hstorage⟩ : ∃ storage, engine.storage = storage := ⟨_, rfl⟩
  have hstorage' : h'.system.engine.storage = storage := by
    rw [hengine]
    exact hstorage
  simp only [hstorage] at heffect
  cases heffect with
  | keeps hquiet =>
      refine ⟨hstorage' ▸ hlogged.session, fun other txn' ts op todo hother => ?_⟩
      rw [hstorage']
      by_cases heq : other = txn.id
      · subst heq
        exact absurd (hcontinues.of_own hother).1 (hquiet ts op todo)
      · exact hcontinues.before hlogged heq hother
  | draws op todo =>
      refine ⟨hstorage' ▸ hlogged.session.advance 1, fun other txn' ts op' todo' hother => ?_⟩
      rw [hstorage']
      by_cases heq : other = txn.id
      · subst heq
        have hresult := (hcontinues.of_own hother).1
        injection hresult with hresult
        injection hresult with hresult
        injection hresult with hts
        -- a timestamp just drawn is above all that are in the log
        exact fun record hrecord _ => hts ▸ hlogged.session.drawn record hrecord
      · exact hcontinues.before hlogged heq hother
  | lands ts op todo =>
      obtain ⟨happlying, hdrawn⟩ := hturn.commits txn.id txn _ hcommitting
      have hbefore := hlogged.before txn.id txn ts op todo hcommitting
      have hkey : op.key ∈ txn.writeSet.writeKeys :=
        WriteSet.mem_writeKeys_of_get (happlying.last op (List.mem_cons_self ..))
      refine ⟨hstorage' ▸ hlogged.session.land hdrawn.drawn hbefore hsafe, ?_⟩
      intro other txn' ts' op' todo' hother
      rw [hstorage']
      by_cases heq : other = txn.id
      · subst heq
        exact absurd (hcontinues.of_own hother).1 (by simp)
      · have hother' := hcontinues.others other heq ▸ hother
        have happlying' := (hturn.commits other txn' _ hother').1
        have hkey' : op'.key ∈ txn'.writeSet.writeKeys :=
          WriteSet.mem_writeKeys_of_get (happlying'.last op' (List.mem_cons_self ..))
        -- two commits under way have no key in common: both would hold its lock
        have hne : op'.key ≠ op.key := fun hsame =>
          hturn.not_mem_writeKeys hcommitting heq hother' hkey (hsame ▸ hkey')
        exact (hcontinues.before hlogged heq hother).land
          hlogged.session.durable.onDisk hsafe hne

end

theorem Logged.step (hashKey : Bytes → UInt64) {h : SerialHistory} (hlogged : h.Logged)
    (hturn : h.InTurn) {action : TxnStep} (hhealthy : TxnSystem.Healthy action)
    (hserial : h.system.SerialStep action) : (h.step hashKey action).Logged := by
  by_cases hcontinue : ∃ txnId order faults, action = .continueCommit txnId order faults
  · obtain ⟨txnId, order, faults, rfl⟩ := hcontinue
    obtain rfl : faults = noFaults := hhealthy
    cases hcommitting : h.system.committing txnId with
    | none =>
        have hsame : (h.step hashKey (.continueCommit txnId order noFaults)).system =
            h.system := by
          show h.system.step hashKey (.continueCommit txnId order noFaults) = h.system
          simp only [TxnSystem.step, hcommitting]
        exact ⟨hsame ▸ hlogged.session, hsame ▸ hlogged.before⟩
    | some commit =>
        obtain ⟨txn, progress⟩ := commit
        obtain rfl := hturn.locked.ids txnId txn (TxnSystem.lookup_of_committing hcommitting)
        exact (hturn.continues hashKey hcommitting order).logged hturn hlogged hcommitting
          (hserial (txn, progress) hcommitting) (commitStep_storage order _ txn progress)
  · push Not at hcontinue
    have hstorage : (h.step hashKey action).system.engine.storage = h.system.engine.storage :=
      TxnSystem.storage_step hhealthy hcontinue
    refine ⟨hstorage ▸ hlogged.session, fun txnId txn ts op todo hcommitting => ?_⟩
    rw [hstorage]
    -- a commit that is called here has not come to a write
    cases hold : h.system.committing txnId with
    | some commit =>
        have hsame := TxnSystem.frozen_committing hashKey hturn.locked hold (hcontinue txnId)
        exact hlogged.before txnId txn ts op todo (hold.trans (hsame.symm.trans hcommitting))
    | none =>
        by_cases hcommit : ∃ physical, action = .commit txnId physical
        · obtain ⟨physical, rfl⟩ := hcommit
          obtain ⟨-, commitTs, hdrawn⟩ := TxnSystem.committing_commit hashKey hold hcommitting
          contradiction
        · push Not at hcommit
          have hsame := TxnSystem.committing_step hashKey hturn.locked hturn.unprepared hcommit
            (hcontinue txnId)
          exact hlogged.before txnId txn ts op todo (hsame.symm.trans hcommitting)

/-! ## The restart -/

/-- The database that is opened next shows the store of the committed transactions, and what the
commits under way have applied; or nothing at all, if the memtable was never rotated. -/
structure Restored (h : SerialHistory) (s : Lsm) : Prop where
  applied : h.system.engine.storage.Listed → ∀ txnId key effect,
    h.system.AppliedBy txnId key effect → s.newest key = effect
  settled : h.system.engine.storage.Listed → ∀ key,
    (∀ txnId effect, ¬ h.system.AppliedBy txnId key effect) →
      s.newest key = lastWrite h.committed key
  lost : ¬ h.system.engine.storage.Listed → ∀ key, s.newest key = none

/-- In every run of a new database as in `serial_run`, a sync that succeeds makes the store of the
committed transactions durable, once the memtable has been rotated: whether the database is then
closed or crashes, it is what the next open shows.  Before that the next open shows nothing. -/
theorem reopened_run (hashKey : Bytes → UInt64) (memtableSize : ℕ) (config : LockConfig)
    (steps : List TxnStep) (hhealthy : ∀ action ∈ steps, TxnSystem.Healthy action)
    (hserial : Run.Along (step hashKey) (fun h action => h.system.SerialStep action)
      (init memtableSize config) steps) {h : SerialHistory}
    (hrun : h = Run.run (step hashKey) (init memtableSize config) steps)
    (faults : Faults IoCall)
    (hsync : (exec (Lsm.sync faults) h.system.engine.storage).1 = .ok ())
    (survive memtableSize' : ℕ) :
    h.Restored (Lsm.openDir memtableSize'
      ((exec (Lsm.sync faults) h.system.engine.storage).2.endSession survive)) := by
  have hboth := (Run.along_of_forall hhealthy (init memtableSize config)).and hserial
  have hinv : h.InTurn ∧ h.Logged := by
    rw [hrun]
    apply hboth.invariant (fun h => h.InTurn ∧ h.Logged)
    · intro h action ⟨hturn, hlogged⟩ ⟨hhealthy, hserial⟩
      exact ⟨hturn.step hashKey hhealthy hserial, hlogged.step hashKey hturn hhealthy hserial⟩
    · exact ⟨inTurn_init memtableSize config, logged_init memtableSize config⟩
  obtain ⟨hturn, hsession, -⟩ := hinv
  rw [Lsm.exec_sync_ok hsync]
  constructor
  · intro hlisted txnId key effect happlied
    rw [hsession.durable.newest_reopened hlisted, ← hturn.ready.get]
    exact hturn.serial.applied txnId key effect happlied
  · intro hlisted key hnone
    rw [hsession.durable.newest_reopened hlisted]
    exact hturn.settled key hnone
  · intro hnot key
    exact hsession.newest_reopened hnot survive memtableSize' key

/-- The memtable is rotated while the first of the two commits is under way. -/
theorem reopened_interleaved :
    let h := Run.run (step fun _ => 0) (init 4 LockConfig.default) interleaved
    h.Restored (Lsm.openDir 4
      ((exec (Lsm.sync noFaults) h.system.engine.storage).2.endSession 0)) :=
  reopened_run _ 4 _ interleaved
    (by simp [interleaved, continueCommits, CommitHistory.beginSnapshot, CommitHistory.putKey,
      TxnSystem.Healthy])
    (by decide +kernel) rfl noFaults rfl 0 4

/-- With a larger memtable the same commits are lost. -/
example :
    let reopened := fun memtableSize =>
      let h := Run.run (step fun _ => 0) (init memtableSize LockConfig.default) interleaved
      (Lsm.openDir memtableSize
        ((exec (Lsm.sync noFaults) h.system.engine.storage).2.endSession 0)).newest [7]
    reopened 4 = some [1] ∧ reopened 100 = none := by
  decide +kernel

end SerialHistory
end Crabstash

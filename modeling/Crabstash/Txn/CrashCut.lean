import Crabstash.Storage.Durability
import Crabstash.Txn.Observed

/-!
# What a crash leaves of a commit or a batch

The writes of a commit are separate records of the log, each logged when its turn
comes, and so are those of a batch, which is logged at once.  Nothing in the log says
which records belong together, and the replay takes every record by itself.  A crash
that keeps an initial part of the log therefore keeps an initial part of every commit
and of every batch: all of it if its last record is before the cut, nothing if its
first record is behind it, and else a part (`restored_run`).

A rotation moves what has been logged by then into a table, which a crash does not
touch.  So the cut only concerns the writes since the last rotation, and the
observer's count `flushed` says where these begin.  The obstacle is that a restored
version could be the work of another record with the same key and timestamp;
`FreshTs` excludes it within a session.
-/

namespace Crabstash

open Crabstash.Action Run

/-! ## Replaying records with different versions -/

namespace MemTable

/-- A replay without a version leaves the version as it was. -/
theorem mem_iter_replay_of_absent {m : MemTable} {records : List WalRecord}
    {e : Key × Option Bytes} (habsent : ∀ record ∈ records, record.version ≠ e.1) :
    e ∈ (m.replay records).iter ↔ e ∈ m.iter := by
  induction records generalizing m with
  | nil => rfl
  | cons record rest ih =>
      have hcons : m.replay (record :: rest) =
          (m.record record.version record.effect).replay rest := by
        rw [← replayRecord_eq]
        rfl
      have hne := habsent record (List.mem_cons_self ..)
      rw [hcons, ih fun r hr => habsent r (List.mem_cons_of_mem _ hr), mem_iter_record]
      constructor
      · rintro (rfl | ⟨hmem, _⟩)
        · exact absurd rfl hne
        · exact hmem
      · intro hmem
        exact Or.inr ⟨hmem, Ne.symm hne⟩

/-- If no two records have the same version, each leaves its own. -/
theorem mem_iter_replay_of_mem {m : MemTable} {records : List WalRecord}
    (hdistinct : records.Pairwise fun r r' => r.version ≠ r'.version) {record : WalRecord}
    (hrecord : record ∈ records) : (record.version, record.effect) ∈ (m.replay records).iter := by
  induction records generalizing m with
  | nil => exact absurd hrecord List.not_mem_nil
  | cons first rest ih =>
      have hrest := List.pairwise_cons.mp hdistinct
      have hcons : m.replay (first :: rest) =
          (m.record first.version first.effect).replay rest := by
        rw [← replayRecord_eq]
        rfl
      rw [hcons]
      rcases List.mem_cons.mp hrecord with rfl | hrecord
      · have hlater : ∀ r ∈ rest, r.version ≠ record.version := fun r hr =>
          Ne.symm (hrest.1 r hr)
        exact (mem_iter_replay_of_absent hlater).mpr (mem_iter_record.mpr (Or.inl rfl))
      · exact ih hrest.2 hrecord

end MemTable

/-! ## The directory after a crash -/

namespace Lsm

/-- The directory if the first `n` records of the log of the session survive. -/
def crashAt (s : Lsm) (n : ℕ) : Dir :=
  { s.dir with
    wals := Function.update s.dir.wals s.wal.id (some ((s.walRecords s.wal.id).take n)) }

/-- The records of the earlier logs. -/
def earlierRecords (s : Lsm) : List WalRecord :=
  (List.range' 1 (s.wal.id - 1)).flatMap s.walRecords

theorem OnDisk.manifest_crashAt {s : Lsm} (h : s.OnDisk) (n memtableSize : ℕ) :
    (openDir memtableSize (s.crashAt n)).manifest = s.manifest := by
  obtain ⟨lines, hlines, hload⟩ := h.manifest
  have hlines' : (s.crashAt n).manifest = some lines := hlines
  rw [openDir, hlines', hload]

theorem OnDisk.levels_crashAt {s : Lsm} (h : s.OnDisk) (n memtableSize : ℕ) :
    (openDir memtableSize (s.crashAt n)).levels = s.levels := by
  obtain ⟨lines, hlines, hload⟩ := h.manifest
  have hlines' : (s.crashAt n).manifest = some lines := hlines
  funext level
  rw [h.levels level, hload, openDir, hlines']
  rfl

/-- The replay at the next open: the earlier logs, and what is left of the last one if it
is listed. -/
theorem OnDisk.memtable_crashAt {s : Lsm} (h : s.OnDisk) (n memtableSize : ℕ) :
    (openDir memtableSize (s.crashAt n)).memtable =
      (MemTable.new.replay s.earlierRecords).replay
        (if s.Listed then (s.walRecords s.wal.id).take n else []) := by
  have hmanifest := h.manifest_crashAt n memtableSize
  have hwal : (openDir memtableSize (s.crashAt n)).wal.id = s.manifest.nextWalId := by
    rw [← hmanifest]
    rfl
  -- the crash has cut the last log only
  have hfile : ∀ walId < s.manifest.nextWalId,
      (openDir memtableSize (s.crashAt n)).walRecords walId =
        if walId = s.wal.id then (s.walRecords s.wal.id).take n else s.walRecords walId := by
    intro walId hlt
    have hne : walId ≠ (openDir memtableSize (s.crashAt n)).wal.id := by
      rw [hwal]
      exact hlt.ne
    have hsame : (openDir memtableSize (s.crashAt n)).dir.wals walId = (s.crashAt n).wals walId :=
      Function.update_of_ne hne _ _
    rw [walRecords, if_neg hne, List.append_nil, hsame]
    by_cases hself : walId = s.wal.id
    · have hcut : (s.crashAt n).wals s.wal.id = some ((s.walRecords s.wal.id).take n) :=
        Function.update_self _ _ _
      rw [if_pos hself, hself, hcut]
      rfl
    · have hother : (s.crashAt n).wals walId = s.dir.wals walId :=
        Function.update_of_ne hself _ _
      rw [if_neg hself, hother, walRecords, if_neg hself, List.append_nil]
  have hearlier : (List.range' 1 (s.wal.id - 1)).flatMap
      (openDir memtableSize (s.crashAt n)).walRecords = s.earlierRecords := by
    refine List.flatMap_congr fun walId hwalId => ?_
    have hlt : walId < s.wal.id := mem_range'_one hwalId
    have hnext : walId < s.manifest.nextWalId := by
      have := h.wal
      omega
    rw [hfile walId hnext, if_neg hlt.ne]
  rw [memtable_openDir, recovered, listedRecords, hmanifest]
  by_cases hlisted : s.Listed
  · rw [if_pos hlisted, h.range'_eq hlisted, List.flatMap_append, hearlier,
      List.flatMap_singleton, hfile s.wal.id hlisted, if_pos rfl, MemTable.replay_append]
  · have hlast : s.manifest.nextWalId = s.wal.id := by
      have hnot : ¬ s.wal.id < s.manifest.nextWalId := hlisted
      have := h.wal
      omega
    rw [if_neg hlisted, hlast, hearlier]
    rfl

/-! ## Several writes -/

theorem nextTs_writeAll (s : Lsm) (entries : List LogEntry) :
    (s.writeAll entries).nextTs = s.nextTs := by
  induction entries generalizing s with
  | nil => rfl
  | cons e rest ih => exact ih (s.write e.op.key e.op.effect e.ts)

end Lsm

namespace LogEntry

/-- The version that the write has in the storage. -/
def version (e : LogEntry) : Key := ⟨e.op.key, e.ts⟩

/-- The record of the write in the log. -/
def record (e : LogEntry) : WalRecord := .ofWrite e.op.key e.op.effect e.ts

@[simp] theorem version_record (e : LogEntry) : e.record.version = e.version := rfl

@[simp] theorem effect_record (e : LogEntry) : e.record.effect = e.op.effect :=
  WalRecord.effect_ofWrite _ _ _

end LogEntry

/-! ## Timestamps that are drawn and not yet used -/

/-- The timestamp drawn for the next write. -/
def CommitProgress.held : CommitProgress → List ℕ
  | .drawn _ => []
  | .validated _ => []
  | .applying _ => []
  | .writing ts _ _ => [ts]

namespace MvccSystem

/-- The timestamps a call has drawn for writes that it has not made yet. -/
def heldBy (s : MvccSystem) : Writer → List ℕ
  | .txn txnId => (s.commits.lookup txnId).elim [] CommitProgress.held
  | .batch batchId =>
      (s.batches.lookup batchId).elim [] fun batch => List.range' batch.1 batch.2.length

/-- What a commit holds after a step. -/
def heldAfter : Except Error (Option CommitProgress) → List ℕ
  | .ok (some progress) => progress.held
  | .ok none => []
  | .error _ => []

theorem heldBy_congr {s s' : MvccSystem} (hcommits : s'.commits = s.commits)
    (hbatches : s'.batches = s.batches) (w : Writer) : s'.heldBy w = s.heldBy w := by
  cases w with
  | txn txnId => rw [heldBy, heldBy, hcommits]
  | batch batchId => rw [heldBy, heldBy, hbatches]

theorem heldBy_proceed_of_ne (s : MvccSystem) (txnId : ℕ)
    (result : Except Error (Option CommitProgress) × MvccEngine) {w : Writer}
    (hne : w ≠ .txn txnId) : (s.proceed txnId result).heldBy w = s.heldBy w := by
  have hcommits : ∀ txnId' ≠ txnId,
      (s.proceed txnId result).commits.lookup txnId' = s.commits.lookup txnId' := by
    intro txnId' hne'
    match result with
    | (.error e, engine) => exact AList.lookup_erase_ne hne'
    | (.ok none, engine) => exact AList.lookup_erase_ne hne'
    | (.ok (some progress), engine) => exact AList.lookup_insert_ne hne'
  have hbatches : (s.proceed txnId result).batches = s.batches := by
    match result with
    | (.error e, engine) => rfl
    | (.ok none, engine) => rfl
    | (.ok (some progress), engine) => rfl
  cases w with
  | txn txnId' => rw [heldBy, heldBy, hcommits txnId' fun heq => hne (congrArg Writer.txn heq)]
  | batch batchId => rw [heldBy, heldBy, hbatches]

theorem heldBy_proceed_self (s : MvccSystem) (txnId : ℕ)
    (result : Except Error (Option CommitProgress) × MvccEngine) :
    (s.proceed txnId result).heldBy (.txn txnId) = heldAfter result.1 := by
  rw [heldBy]
  match result with
  | (.error e, engine) =>
      show ((s.commits.erase txnId).lookup txnId).elim [] CommitProgress.held = []
      rw [AList.lookup_erase]
      rfl
  | (.ok none, engine) =>
      show ((s.commits.erase txnId).lookup txnId).elim [] CommitProgress.held = []
      rw [AList.lookup_erase]
      rfl
  | (.ok (some progress), engine) =>
      show ((s.commits.insert txnId progress).lookup txnId).elim [] CommitProgress.held = _
      rw [AList.lookup_insert]
      rfl

/-- Outside the loops over the write set a commit draws no timestamp for a write. -/
theorem heldAfter_commitNext (engine : MvccEngine) (order : IterOrder) (txn : Transaction)
    {progress : CommitProgress} (houtside : progress.OutsideLoops) :
    heldAfter (exec (commitNext order txn progress) engine).1 = [] := by
  cases progress with
  | drawn commitTs =>
      rw [commitNext]
      by_cases hreadOnly : txn.isolation.isReadOnly
      · rw [if_pos hreadOnly, exec_bind_pure]
        cases (exec (MvccEngine.commitReadOnly txn) engine).1 <;> rfl
      · rw [if_neg hreadOnly, exec_bind_pure]
        cases (exec (MvccEngine.validateSsi txn commitTs) engine).1 <;> rfl
  | validated commitTs =>
      rw [commitNext, exec_bind_pure]
      cases (exec (MvccEngine.prepareCommit txn commitTs) engine).1 <;> rfl
  | applying todo =>
      have htodo : todo = [] := houtside
      rw [htodo, commitNext, exec_bind_pure]
      cases (exec (MvccEngine.managerCommit txn) engine).1 <;> rfl
  | writing ts op todo => exact houtside.elim

/-- What a step does with the timestamps that a call holds: nothing, or it draws some, or
it uses all of them. -/
inductive HoldStep (s s' : MvccSystem) (action : EngineStep) (w : Writer) : Prop where
  | quiet (hlanded : s.landedBy action = []) (hdrawn : s.drawnBy action = 0)
      (hheld : s'.heldBy w = s.heldBy w)
  | draw (hlanded : s.landedBy action = [])
      (hheld : s'.heldBy w = List.range' s.engine.storage.nextTs (s.drawnBy action))
  | land (hlanded : (s.landedBy action).map LogEntry.ts = s.heldBy w)
      (hdrawn : s.drawnBy action = 0) (hheld : s'.heldBy w = [])

section

variable (hashKey : Bytes → UInt64) (s : MvccSystem)

/-- A step that neither draws nor writes, and touches no call, could concern any call. -/
theorem holdStep_of_quiet {action : EngineStep} (hlanded : s.landedBy action = [])
    (hdrawn : s.drawnBy action = 0) (hcommits : (s.step hashKey action).commits = s.commits)
    (hbatches : (s.step hashKey action).batches = s.batches) :
    ∃ w, HoldStep s (s.step hashKey action) action w ∧
      ∀ w' ≠ w, (s.step hashKey action).heldBy w' = s.heldBy w' := by
  refine ⟨.batch 0, .quiet hlanded hdrawn (heldBy_congr hcommits hbatches _), ?_⟩
  intro w' _
  exact heldBy_congr hcommits hbatches w'

/-- A method through a handle is not a commit or a batch. -/
theorem calls_unlocked (txnId : ℕ) (engine : Transaction → MvccEngine) :
    let s' := match s.unlocked txnId with
      | none => s
      | some txn => { s with engine := engine txn }
    s'.commits = s.commits ∧ s'.batches = s.batches := by
  cases s.unlocked txnId with
  | none => exact ⟨rfl, rfl⟩
  | some txn => exact ⟨rfl, rfl⟩

theorem holdStep_continueCommit (txnId : ℕ) (order : IterOrder) :
    ∃ w, HoldStep s (s.step hashKey (.continueCommit txnId order)) (.continueCommit txnId order) w ∧
      ∀ w' ≠ w, (s.step hashKey (.continueCommit txnId order)).heldBy w' = s.heldBy w' := by
  cases hcommitting : s.committing txnId with
  | none =>
      apply holdStep_of_quiet
      · rw [landedBy, hcommitting]
      · rw [drawnBy, hcommitting]
      · rw [step, hcommitting]
      · rw [step, hcommitting]
  | some commit =>
      obtain ⟨txn, progress⟩ := commit
      have hheld : s.heldBy (.txn txnId) = progress.held := by
        rw [heldBy, (lookup_of_committing hcommitting).2]
        rfl
      rw [step, hcommitting]
      refine ⟨.txn txnId, ?_, fun w' hne => heldBy_proceed_of_ne s txnId _ hne⟩
      -- outside the two loops a commit neither draws for storage nor lands a write
      by_cases houtside : progress.OutsideLoops
      · have hquiet := quiet_of_outsideLoops hcommitting houtside order
        apply HoldStep.draw hquiet.landedBy
        rw [heldBy_proceed_self, hquiet.drawnBy]
        exact heldAfter_commitNext s.engine order txn houtside
      · cases progress with
        | drawn commitTs => exact absurd trivial houtside
        | validated commitTs => exact absurd trivial houtside
        | applying todo =>
            cases todo with
            | nil => exact absurd rfl houtside
            | cons op todo =>
                apply HoldStep.draw
                · rw [landedBy, hcommitting]
                · rw [heldBy_proceed_self, exec_commitNext_applying, drawnBy, hcommitting]
                  rfl
        | writing ts op todo =>
            apply HoldStep.land
            · rw [landedBy, hcommitting, hheld]
              rfl
            · rw [drawnBy, hcommitting]
            · rw [heldBy_proceed_self, exec_commitNext_writing]
              rfl

theorem holdStep_startBatch (op : BatchOperation) (rest : List BatchOperation) :
    ∃ w, HoldStep s (s.step hashKey (.startBatch (op :: rest))) (.startBatch (op :: rest)) w ∧
      ∀ w' ≠ w, (s.step hashKey (.startBatch (op :: rest))).heldBy w' = s.heldBy w' := by
  refine ⟨.batch s.nextBatchId, .draw rfl ?_, ?_⟩
  · show ((s.batches.insert s.nextBatchId _).lookup s.nextBatchId).elim [] _ = _
    rw [AList.lookup_insert]
    rfl
  · intro w' hne
    cases w' with
    | txn txnId => rfl
    | batch batchId =>
        have hne' : batchId ≠ s.nextBatchId := fun heq => hne (congrArg Writer.batch heq)
        show ((s.batches.insert s.nextBatchId _).lookup batchId).elim [] _ = _
        rw [AList.lookup_insert_ne hne']
        rfl

theorem holdStep_finishBatch (batchId : ℕ) :
    ∃ w, HoldStep s (s.step hashKey (.finishBatch batchId)) (.finishBatch batchId) w ∧
      ∀ w' ≠ w, (s.step hashKey (.finishBatch batchId)).heldBy w' = s.heldBy w' := by
  cases hbatch : s.batches.lookup batchId with
  | none =>
      apply holdStep_of_quiet
      · rw [landedBy, hbatch]
      · rfl
      · rw [step, hbatch]
      · rw [step, hbatch]
  | some batch =>
      obtain ⟨baseTs, operations⟩ := batch
      refine ⟨.batch batchId, .land ?_ rfl ?_, ?_⟩
      · rw [landedBy, hbatch, heldBy, hbatch]
        show ((operations.zipIdx baseTs).map _).map _ = List.range' baseTs operations.length
        rw [List.map_map]
        exact List.zipIdx_map_snd baseTs operations
      · rw [step, hbatch]
        show ((s.batches.erase batchId).lookup batchId).elim [] _ = _
        rw [AList.lookup_erase]
        rfl
      · intro w' hne
        rw [step, hbatch]
        cases w' with
        | txn txnId => rfl
        | batch batchId' =>
            have hne' : batchId' ≠ batchId := fun heq => hne (congrArg Writer.batch heq)
            show ((s.batches.erase batchId).lookup batchId').elim [] _ = _
            rw [AList.lookup_erase_ne hne']
            rfl

/-- A step concerns the timestamps of one call. -/
theorem holdStep (action : EngineStep) :
    ∃ w, HoldStep s (s.step hashKey action) action w ∧
      ∀ w' ≠ w, (s.step hashKey action).heldBy w' = s.heldBy w' := by
  cases action with
  | drawStartTs isolation physical timedOut => exact holdStep_of_quiet hashKey s rfl rfl rfl rfl
  | begin txnId =>
      apply holdStep_of_quiet hashKey s rfl rfl
      · rw [step]
        split <;> rfl
      · rw [step]
        split <;> rfl
  -- these calls touch neither commits nor batches
  | get txnId key =>
      obtain ⟨hcommits, hbatches⟩ := calls_unlocked s txnId _
      exact holdStep_of_quiet hashKey s rfl rfl hcommits hbatches
  | put txnId key value lock =>
      obtain ⟨hcommits, hbatches⟩ := calls_unlocked s txnId _
      exact holdStep_of_quiet hashKey s rfl rfl hcommits hbatches
  | delete txnId key lock =>
      obtain ⟨hcommits, hbatches⟩ := calls_unlocked s txnId _
      exact holdStep_of_quiet hashKey s rfl rfl hcommits hbatches
  | abort txnId =>
      obtain ⟨hcommits, hbatches⟩ := calls_unlocked s txnId _
      exact holdStep_of_quiet hashKey s rfl rfl hcommits hbatches
  | startCommit txnId physical =>
      cases hunlocked : s.unlocked txnId with
      | none =>
          apply holdStep_of_quiet hashKey s rfl rfl
          · rw [step, hunlocked]
          · rw [step, hunlocked]
      | some txn =>
          rw [step, hunlocked]
          refine ⟨.txn txnId, .draw rfl ?_, fun w' hne => heldBy_proceed_of_ne s txnId _ hne⟩
          rw [heldBy_proceed_self]
          rfl
  | continueCommit txnId order => exact holdStep_continueCommit hashKey s txnId order
  | startBatch operations =>
      cases operations with
      | nil => exact holdStep_of_quiet hashKey s rfl rfl rfl rfl
      | cons op rest => exact holdStep_startBatch hashKey s op rest
  | finishBatch batchId => exact holdStep_finishBatch hashKey s batchId
  | sync => exact holdStep_of_quiet hashKey s rfl rfl rfl rfl

end

theorem nextTs_step (hashKey : Bytes → UInt64) (s : MvccSystem) (action : EngineStep) :
    (s.step hashKey action).engine.storage.nextTs =
      s.engine.storage.nextTs + s.drawnBy action := by
  have hlogged : (s.logged action).nextTs = s.engine.storage.nextTs + s.drawnBy action := by
    by_cases hsync : action = .sync
    · rw [hsync]
      rfl
    · rw [logged_of_ne hsync, Lsm.nextTs_writeAll]
      rfl
  rw [storage_step]
  split
  · exact hlogged
  · exact hlogged

theorem heldBy_nodup (s : MvccSystem) (w : Writer) : (s.heldBy w).Nodup := by
  cases w with
  | txn txnId =>
      rw [heldBy]
      cases s.commits.lookup txnId with
      | none => exact List.nodup_nil
      | some progress =>
          cases progress with
          | writing ts op todo => exact List.nodup_singleton ts
          | _ => exact List.nodup_nil
  | batch batchId =>
      rw [heldBy]
      cases s.batches.lookup batchId with
      | none => exact List.nodup_nil
      | some batch => exact List.nodup_range'

end MvccSystem

/-! ## The invariant -/

namespace Observed

variable {hashKey : Bytes → UInt64}

/-- Every timestamp of the session is in one place: with one write, or with one call. -/
structure FreshTs (o : Observed) : Prop where
  log_lt : ∀ e ∈ o.log, e.ts < o.system.engine.storage.nextTs
  log_distinct : o.log.Pairwise fun e e' => e.ts ≠ e'.ts
  held_lt : ∀ w, ∀ ts ∈ o.system.heldBy w, ts < o.system.engine.storage.nextTs
  held_distinct : ∀ w w', w ≠ w' → ∀ ts ∈ o.system.heldBy w, ts ∉ o.system.heldBy w'
  held_log : ∀ w, ∀ ts ∈ o.system.heldBy w, ∀ e ∈ o.log, e.ts ≠ ts

theorem freshTs_init (storage : Lsm) : (init storage).FreshTs where
  log_lt := fun _ he => absurd he List.not_mem_nil
  log_distinct := List.Pairwise.nil
  held_lt := by
    intro w ts hts
    cases w <;> exact absurd hts List.not_mem_nil
  held_distinct := by
    intro w _ _ ts hts
    cases w <;> exact absurd hts List.not_mem_nil
  held_log := fun _ _ _ _ he => absurd he List.not_mem_nil

/-- What a call holds after a step that draws nothing for it, it has held before. -/
private theorem FreshTs.of_subset {o : Observed} (h : o.FreshTs) {action : EngineStep}
    (hlanded : o.system.landedBy action = []) (hdrawn : o.system.drawnBy action = 0)
    (hheld : ∀ w, (o.system.step hashKey action).heldBy w = o.system.heldBy w) :
    (o.step hashKey action).FreshTs := by
  have hlog : (o.step hashKey action).log = o.log := by
    show o.log ++ o.system.landedBy action = o.log
    rw [hlanded, List.append_nil]
  have hnext : (o.step hashKey action).system.engine.storage.nextTs =
      o.system.engine.storage.nextTs := by
    show (o.system.step hashKey action).engine.storage.nextTs = _
    rw [MvccSystem.nextTs_step, hdrawn, Nat.add_zero]
  have hheld : ∀ w, (o.step hashKey action).system.heldBy w = o.system.heldBy w := hheld
  constructor
  · rw [hlog, hnext]
    exact h.log_lt
  · rw [hlog]
    exact h.log_distinct
  · intro w
    rw [hheld, hnext]
    exact h.held_lt w
  · intro w w' hne
    rw [hheld, hheld]
    exact h.held_distinct w w' hne
  · intro w
    rw [hheld, hlog]
    exact h.held_log w

private theorem FreshTs.draw {o : Observed} (h : o.FreshTs) {action : EngineStep} {w : Writer}
    (hlanded : o.system.landedBy action = [])
    (hheld : (o.system.step hashKey action).heldBy w =
      List.range' o.system.engine.storage.nextTs (o.system.drawnBy action))
    (hothers : ∀ w' ≠ w, (o.system.step hashKey action).heldBy w' = o.system.heldBy w') :
    (o.step hashKey action).FreshTs := by
  have hlog : (o.step hashKey action).log = o.log := by
    show o.log ++ o.system.landedBy action = o.log
    rw [hlanded, List.append_nil]
  have hnext : (o.step hashKey action).system.engine.storage.nextTs =
      o.system.engine.storage.nextTs + o.system.drawnBy action := MvccSystem.nextTs_step _ _ _
  -- the timestamps drawn are above all that have been drawn before
  have hnew : ∀ ts ∈ (o.step hashKey action).system.heldBy w,
      o.system.engine.storage.nextTs ≤ ts ∧
        ts < (o.step hashKey action).system.engine.storage.nextTs := by
    intro ts hts
    have hts : ts ∈ (o.system.step hashKey action).heldBy w := hts
    rw [hheld] at hts
    rw [hnext]
    exact List.mem_range'_1.mp hts
  have hold : ∀ w' ≠ w, (o.step hashKey action).system.heldBy w' = o.system.heldBy w' := hothers
  constructor
  · intro e he
    rw [hlog] at he
    have := h.log_lt e he
    omega
  · rw [hlog]
    exact h.log_distinct
  · intro w' ts hts
    by_cases hw' : w' = w
    · rw [hw'] at hts
      exact (hnew ts hts).2
    · rw [hold w' hw'] at hts
      have := h.held_lt w' ts hts
      omega
  · intro w₁ w₂ hne ts hts hts'
    by_cases hw₁ : w₁ = w
    · have hw₂ : w₂ ≠ w := fun heq => hne (hw₁.trans heq.symm)
      rw [hw₁] at hts
      rw [hold w₂ hw₂] at hts'
      have := (hnew ts hts).1
      have := h.held_lt w₂ ts hts'
      omega
    · rw [hold w₁ hw₁] at hts
      by_cases hw₂ : w₂ = w
      · rw [hw₂] at hts'
        have := (hnew ts hts').1
        have := h.held_lt w₁ ts hts
        omega
      · rw [hold w₂ hw₂] at hts'
        exact h.held_distinct w₁ w₂ hne ts hts hts'
  · intro w' ts hts e he
    rw [hlog] at he
    by_cases hw' : w' = w
    · rw [hw'] at hts
      have := (hnew ts hts).1
      have := h.log_lt e he
      omega
    · rw [hold w' hw'] at hts
      exact h.held_log w' ts hts e he

private theorem FreshTs.land {o : Observed} (h : o.FreshTs) {action : EngineStep} {w : Writer}
    (hlanded : (o.system.landedBy action).map LogEntry.ts = o.system.heldBy w)
    (hdrawn : o.system.drawnBy action = 0)
    (hheld : (o.system.step hashKey action).heldBy w = [])
    (hothers : ∀ w' ≠ w, (o.system.step hashKey action).heldBy w' = o.system.heldBy w') :
    (o.step hashKey action).FreshTs := by
  have hlog : (o.step hashKey action).log = o.log ++ o.system.landedBy action := rfl
  have hnext : (o.step hashKey action).system.engine.storage.nextTs =
      o.system.engine.storage.nextTs := by
    show (o.system.step hashKey action).engine.storage.nextTs = _
    rw [MvccSystem.nextTs_step, hdrawn, Nat.add_zero]
  have hts : ∀ e ∈ o.system.landedBy action, e.ts ∈ o.system.heldBy w := by
    intro e he
    rw [← hlanded]
    exact List.mem_map_of_mem he
  -- what is held after the step was held before, by another call
  have hold : ∀ w' ts, ts ∈ (o.step hashKey action).system.heldBy w' →
      w' ≠ w ∧ ts ∈ o.system.heldBy w' := by
    intro w' ts hmem
    have hmem : ts ∈ (o.system.step hashKey action).heldBy w' := hmem
    by_cases hw' : w' = w
    · rw [hw', hheld] at hmem
      exact absurd hmem List.not_mem_nil
    · rw [hothers w' hw'] at hmem
      exact ⟨hw', hmem⟩
  constructor
  · intro e he
    rw [hlog] at he
    rw [hnext]
    rcases List.mem_append.mp he with he | he
    · exact h.log_lt e he
    · exact h.held_lt w e.ts (hts e he)
  · rw [hlog, List.pairwise_append]
    refine ⟨h.log_distinct, ?_, ?_⟩
    · have hnodup := o.system.heldBy_nodup w
      rw [← hlanded] at hnodup
      exact List.pairwise_map.mp hnodup
    · intro e he e' he'
      exact h.held_log w e'.ts (hts e' he') e he
  · intro w' ts hmem
    rw [hnext]
    exact h.held_lt w' ts (hold w' ts hmem).2
  · intro w₁ w₂ hne ts hmem hmem'
    exact h.held_distinct w₁ w₂ hne ts (hold w₁ ts hmem).2 (hold w₂ ts hmem').2
  · intro w' ts hmem e he
    obtain ⟨hw', hmem⟩ := hold w' ts hmem
    rw [hlog] at he
    rcases List.mem_append.mp he with he | he
    · exact h.held_log w' ts hmem e he
    · rintro rfl
      exact h.held_distinct w' w hw' e.ts hmem (hts e he)

theorem FreshTs.step {o : Observed} (h : o.FreshTs) (action : EngineStep) :
    (o.step hashKey action).FreshTs := by
  obtain ⟨w, hhold, hothers⟩ := o.system.holdStep hashKey action
  cases hhold with
  | quiet hlanded hdrawn hheld =>
      apply h.of_subset hlanded hdrawn
      intro w'
      by_cases hw' : w' = w
      · rw [hw', hheld]
      · exact hothers w' hw'
  | draw hlanded hheld => exact h.draw hlanded hheld hothers
  | land hlanded hdrawn hheld => exact h.land hlanded hdrawn hheld hothers

end Observed

/-- What has been written in the session is in the log and in the memtable, except for
the first `flushed` writes, which are in tables of level 0. -/
structure Logs (s : Lsm) (log : List LogEntry) (flushed : ℕ) : Prop where
  onDisk : s.OnDisk
  flushed_le : flushed ≤ log.length
  wal : s.walRecords s.wal.id = (log.drop flushed).map LogEntry.record
  memtable : ∀ e ∈ log.drop flushed, (e.version, e.op.effect) ∈ s.memtable.iter
  tables : ∀ e ∈ log.take flushed, ∃ sst ∈ s.levels 0, (e.op.key, e.op.effect) ∈ sst.entries
  unlisted : ¬ s.Listed → flushed = 0

namespace Logs

variable {s : Lsm} {log : List LogEntry} {flushed : ℕ}

theorem openDir (memtableSize : ℕ) (dir : Dir) : Logs (Lsm.openDir memtableSize dir) [] 0 where
  onDisk := Lsm.onDisk_openDir memtableSize dir
  flushed_le := le_rfl
  wal := by
    have hfile : (Lsm.openDir memtableSize dir).dir.wals (Lsm.openDir memtableSize dir).wal.id =
        some [] := Function.update_self _ _ _
    rw [Lsm.walRecords, hfile, if_pos rfl]
    rfl
  memtable := fun _ he => absurd he List.not_mem_nil
  tables := fun _ he => absurd he List.not_mem_nil
  unlisted := fun _ => rfl

theorem advance (h : Logs s log flushed) (count : ℕ) : Logs (s.advance count) log flushed :=
  ⟨h.onDisk.advance count, h.flushed_le, h.wal, h.memtable, h.tables, h.unlisted⟩

theorem flushWal (h : Logs s log flushed) : Logs s.flushWal log flushed where
  onDisk := h.onDisk.flushWal
  flushed_le := h.flushed_le
  wal := (Lsm.walRecords_flushWal s s.wal.id).trans h.wal
  memtable := h.memtable
  tables := h.tables
  unlisted := h.unlisted

theorem write (h : Logs s log flushed) {e : LogEntry} (hfresh : ∀ e' ∈ log, e'.version ≠ e.version) :
    Logs (s.write e.op.key e.op.effect e.ts) (log ++ [e]) flushed := by
  have hdrop : (log ++ [e]).drop flushed = log.drop flushed ++ [e] :=
    List.drop_append_of_le_length h.flushed_le
  constructor
  · exact h.onDisk.write e.op.key e.op.effect e.ts
  · rw [List.length_append]
    exact Nat.le_add_right_of_le h.flushed_le
  · calc (s.write e.op.key e.op.effect e.ts).walRecords s.wal.id
        = s.walRecords s.wal.id ++ [e.record] := Lsm.walRecords_write_self s _ _ _
      _ = ((log ++ [e]).drop flushed).map LogEntry.record := by
          rw [h.wal, hdrop, List.map_append]
          rfl
  · intro e' he'
    rw [hdrop] at he'
    rcases List.mem_append.mp he' with he' | he'
    · have hne := hfresh e' (List.mem_of_mem_drop he')
      exact MemTable.mem_iter_record.mpr (Or.inr ⟨h.memtable e' he', hne⟩)
    · rw [List.mem_singleton.mp he']
      exact MemTable.mem_iter_record.mpr (Or.inl rfl)
  · intro e' he'
    rw [List.take_append_of_le_length h.flushed_le] at he'
    exact h.tables e' he'
  · exact h.unlisted

theorem writeAll (h : Logs s log flushed) {entries : List LogEntry}
    (hdistinct : (log ++ entries).Pairwise fun e e' => e.ts ≠ e'.ts) :
    Logs (s.writeAll entries) (log ++ entries) flushed := by
  induction entries generalizing s log with
  | nil =>
      rw [List.append_nil]
      exact h
  | cons e rest ih =>
      have hsplit : log ++ e :: rest = (log ++ [e]) ++ rest := by simp
      rw [hsplit] at hdistinct ⊢
      have hfresh : ∀ e' ∈ log, e'.version ≠ e.version := by
        intro e' he' heq
        have hpair := (List.pairwise_append.mp (List.pairwise_append.mp hdistinct).1).2.2
        exact hpair e' he' e (List.mem_singleton_self e) (congrArg Key.timestamp heq)
      exact ih (h.write hfresh) hdistinct

theorem rotate (h : Logs s log flushed) : Logs s.rotate log log.length where
  onDisk := h.onDisk.rotate
  flushed_le := le_rfl
  wal := by
    have hempty : s.rotate.walRecords s.rotate.wal.id = [] := by
      simp [Lsm.walRecords, Lsm.rotate, Lsm.flushMemtable, Lsm.switchWal, Wal.create, Lsm.logLine]
    rw [hempty, List.drop_length]
    rfl
  memtable := by
    intro e he
    rw [List.drop_length] at he
    exact absurd he List.not_mem_nil
  tables := by
    intro e he
    rw [List.take_length] at he
    rw [Lsm.levels_rotate, Function.update_self]
    rw [← List.take_append_drop flushed log] at he
    rcases List.mem_append.mp he with he | he
    · obtain ⟨sst, hsst, hentry⟩ := h.tables e he
      exact ⟨sst, List.mem_append_left _ hsst, hentry⟩
    · refine ⟨s.nextTable, List.mem_append_right _ (List.mem_singleton_self _), ?_⟩
      rw [SSTable.entries, (Lsm.holds_nextTable s).flatten_blocks]
      exact List.mem_map.mpr ⟨_, h.memtable e he, rfl⟩
  unlisted := by
    intro hnot
    have hnext : s.rotate.manifest.nextWalId = s.manifest.nextWalId + 1 :=
      Lsm.nextWalId_switchWal s
    have hlisted : s.rotate.Listed := by
      rw [Lsm.Listed, hnext]
      exact Nat.lt_succ_self _
    exact absurd hlisted hnot

end Logs

namespace Observed

variable {hashKey : Bytes → UInt64}

theorem logs_step {o : Observed} (h : Logs o.system.engine.storage o.log o.flushed)
    {action : EngineStep} (hfresh : (o.step hashKey action).FreshTs) :
    Logs (o.step hashKey action).system.engine.storage (o.step hashKey action).log
      (o.step hashKey action).flushed := by
  have hlogged : Logs (o.system.logged action) (o.step hashKey action).log o.flushed := by
    by_cases hsync : action = .sync
    · subst hsync
      show Logs o.system.engine.storage.flushWal (o.log ++ []) o.flushed
      rw [List.append_nil]
      exact h.flushWal
    · rw [MvccSystem.logged_of_ne hsync]
      exact (h.advance _).writeAll hfresh.log_distinct
  have hstorage : (o.step hashKey action).system.engine.storage =
      if o.system.Rotates action then (o.system.logged action).rotate
      else o.system.logged action := MvccSystem.storage_step hashKey o.system action
  have hflushed : (o.step hashKey action).flushed =
      if o.system.Rotates action then (o.step hashKey action).log.length else o.flushed := rfl
  rw [hstorage, hflushed]
  split
  · exact hlogged.rotate
  · exact hlogged

/-! ## After a crash -/

/-- The writes of one call, in the order in which they were logged. -/
def writesOf (o : Observed) (w : Writer) : List LogEntry := o.log.filter fun e => e.writer = w

/-- How many writes are before the cut if `n` records of the log survive a crash; none of a log that
the manifest does not list, which is not replayed. -/
def keptBy (o : Observed) (n : ℕ) : ℕ :=
  if o.system.engine.storage.Listed then o.flushed + n else 0

/-- The write is in the memtable or in a table. -/
def Restored (s : Lsm) (e : LogEntry) : Prop :=
  (e.version, e.op.effect) ∈ s.memtable.iter ∨
    ∃ sst ∈ s.levels 0, (e.op.key, e.op.effect) ∈ sst.entries

instance (s : Lsm) (e : LogEntry) : Decidable (Restored s e) :=
  inferInstanceAs (Decidable (_ ∨ _))

/-- The writes of a call that were logged before the first `n` of the log are its first ones. -/
theorem take_writesOf (o : Observed) (n : ℕ) (w : Writer) :
    (o.writesOf w).take ((o.log.take n).filter fun e => e.writer = w).length =
        ((o.log.take n).filter fun e => e.writer = w) ∧
      (o.writesOf w).drop ((o.log.take n).filter fun e => e.writer = w).length =
        ((o.log.drop n).filter fun e => e.writer = w) := by
  have hsplit : o.writesOf w = ((o.log.take n).filter fun e => e.writer = w) ++
      (o.log.drop n).filter fun e => e.writer = w := by
    rw [← List.filter_append, List.take_append_drop]
    rfl
  rw [hsplit]
  exact ⟨List.take_left, List.drop_left⟩

section Crash

variable {o : Observed} (hfresh : o.FreshTs) (hlogs : Logs o.system.engine.storage o.log o.flushed)

include hfresh hlogs

/-- What the crash leaves is restored: from a table, or from the log of the memtable. -/
theorem restored_of_mem_take (memtableSize n : ℕ) {e : LogEntry} (he : e ∈ o.log.take (o.keptBy n)) :
    Restored (Lsm.openDir memtableSize (o.system.engine.storage.crashAt n)) e := by
  by_cases hlisted : o.system.engine.storage.Listed
  · have hkept : o.keptBy n = o.flushed + n := if_pos hlisted
    rw [hkept, List.take_add] at he
    unfold Restored
    rw [hlogs.onDisk.memtable_crashAt, hlogs.onDisk.levels_crashAt, if_pos hlisted, hlogs.wal]
    rcases List.mem_append.mp he with he | he
    · exact Or.inr (hlogs.tables e he)
    · left
      have hdistinct : ((o.log.drop o.flushed).map LogEntry.record).Pairwise
          fun r r' => r.version ≠ r'.version := by
        rw [List.pairwise_map]
        refine (hfresh.log_distinct.sublist (List.drop_sublist _ _)).imp fun hne heq => ?_
        exact hne (congrArg Key.timestamp heq)
      have hrecord : e.record ∈ ((o.log.drop o.flushed).map LogEntry.record).take n := by
        rw [← List.map_take]
        exact List.mem_map_of_mem he
      have hreplayed := MemTable.mem_iter_replay_of_mem
        (m := MemTable.new.replay o.system.engine.storage.earlierRecords)
        (hdistinct.sublist (List.take_sublist _ _)) hrecord
      rw [LogEntry.version_record, LogEntry.effect_record] at hreplayed
      exact hreplayed
  · have hkept : o.keptBy n = 0 := if_neg hlisted
    rw [hkept, List.take_zero] at he
    exact absurd he List.not_mem_nil

/-- What the crash takes away does not come back from the log of the memtable. -/
theorem mem_memtable_of_mem_drop (memtableSize n : ℕ) {e : LogEntry}
    (he : e ∈ o.log.drop (o.keptBy n)) :
    (e.version, e.op.effect) ∈
        (Lsm.openDir memtableSize (o.system.engine.storage.crashAt n)).memtable.iter ↔
      (e.version, e.op.effect) ∈
        (Lsm.openDir memtableSize (o.system.engine.storage.crashAt 0)).memtable.iter := by
  rw [hlogs.onDisk.memtable_crashAt, hlogs.onDisk.memtable_crashAt]
  by_cases hlisted : o.system.engine.storage.Listed
  · have hkept : o.keptBy n = o.flushed + n := if_pos hlisted
    rw [hkept, ← List.drop_drop] at he
    rw [if_pos hlisted, if_pos hlisted, hlogs.wal, List.take_zero]
    apply MemTable.mem_iter_replay_of_absent
    intro record hrecord heq
    rw [← List.map_take] at hrecord
    obtain ⟨e', he', rfl⟩ := List.mem_map.mp hrecord
    -- one of the two is before the cut and the other behind it
    have hsplit := hfresh.log_distinct.sublist (List.drop_sublist o.flushed _)
    rw [← List.take_append_drop n (o.log.drop o.flushed), List.pairwise_append] at hsplit
    exact hsplit.2.2 e' he' e he (congrArg Key.timestamp heq)
  · rw [if_neg hlisted, if_neg hlisted]

end Crash

/-- On a database that is opened on any directory, in every run of transactions and
batches: if a crash leaves the first `n` records of the log, the next open restores, of
every commit and of every batch, the writes that were logged before the cut.  These are
the first ones of the call; of the others the replay brings back nothing that the earlier
logs do not have. -/
theorem restored_run (memtableSize : ℕ) (dir : Dir) (hashKey : Bytes → UInt64)
    (actions : List EngineStep) (n memtableSize' : ℕ) (w : Writer) :
    let o := run (step hashKey) (init (Lsm.openDir memtableSize dir)) actions
    let before := ((o.log.take (o.keptBy n)).filter fun e => e.writer = w).length
    (∀ e ∈ (o.writesOf w).take before,
      Restored (Lsm.openDir memtableSize' (o.system.engine.storage.crashAt n)) e) ∧
    ∀ e ∈ (o.writesOf w).drop before,
      ((e.version, e.op.effect) ∈
          (Lsm.openDir memtableSize' (o.system.engine.storage.crashAt n)).memtable.iter ↔
        (e.version, e.op.effect) ∈
          (Lsm.openDir memtableSize' (o.system.engine.storage.crashAt 0)).memtable.iter) := by
  intro o before
  have hinv : o.FreshTs ∧ Logs o.system.engine.storage o.log o.flushed := by
    apply invariant fun o : Observed =>
      o.FreshTs ∧ Logs o.system.engine.storage o.log o.flushed
    · intro o action ⟨hfresh, hlogs⟩
      exact ⟨hfresh.step action, logs_step hlogs (hfresh.step action)⟩
    · exact ⟨freshTs_init _, Logs.openDir memtableSize dir⟩
  obtain ⟨hfresh, hlogs⟩ := hinv
  obtain ⟨htake, hdrop⟩ := o.take_writesOf (o.keptBy n) w
  constructor
  · intro e he
    rw [htake] at he
    exact restored_of_mem_take hfresh hlogs memtableSize' n (List.mem_filter.mp he).1
  · intro e he
    rw [hdrop] at he
    exact mem_memtable_of_mem_drop hfresh hlogs memtableSize' n (List.mem_filter.mp he).1

/-- A batch that fills the memtable, and after the rotation a batch of two puts. -/
def twoBatches : List EngineStep :=
  [.startBatch [.put [1] (List.replicate 10 1)], .finishBatch 0,
    .startBatch [.put [2] [2], .put [3] [3]], .finishBatch 1]

/-- If one record of the log survives, one of the two puts does. -/
theorem not_restored_all_or_none :
    ¬ ∀ (memtableSize : ℕ) (dir : Dir) (hashKey : Bytes → UInt64) (actions : List EngineStep)
      (n memtableSize' : ℕ) (w : Writer),
      let o := run (step hashKey) (init (Lsm.openDir memtableSize dir)) actions
      let s := Lsm.openDir memtableSize' (o.system.engine.storage.crashAt n)
      (∀ e ∈ o.writesOf w, Restored s e) ∨ ∀ e ∈ o.writesOf w, ¬ Restored s e := by
  intro h
  have htwo := h 10 Dir.empty (fun _ => 0) twoBatches 1 10 (.batch 1)
  exact absurd htwo (by decide +kernel)

end Observed
end Crabstash

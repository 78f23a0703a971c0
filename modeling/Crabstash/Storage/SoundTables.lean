import Crabstash.Storage.CompactionCrash
import Crabstash.Storage.FlushedTables
import Crabstash.Storage.Recency

/-!
# Databases with compactions

All that can happen to a database: any number of threads with calls that may fail anywhere, a
compaction thread that works on the same directory step by step and may stop after any of them,
and any number of sessions.  A table file is written by a flush or by a compaction, and either has
its entries in key order; so every table that a scan can come upon is `Sound`, in whatever order
the steps were taken (`tablesSound_run`).

A scan does not use the tables that the Lsm has open.  `open_sst_iterator` opens each of them again
by its name, and finds nothing where a compaction has removed the file (`openTables`).
-/

namespace Crabstash

open Crabstash.Action Run

/-- A compaction under way: the manifest that its thread has opened, and the steps to come. -/
structure RunningCompaction where
  task : CompactionTask
  manifest : Manifest
  steps : List Compactor.InstallStep

/-- The Lsm, its threads, and the compaction thread. -/
structure Database where
  threads : LsmThreads
  compaction : Option RunningCompaction

/-- A step of a thread of the `Lsm`, of the compaction thread, or a crash and the next opening.
-/
inductive DatabaseStep where
  | thread (action : ThreadStep)
  /-- The compaction thread opens the manifest, picks a task and merges the inputs. -/
  | pick
  | install
  /-- The compaction has come to its end, or a call of it has failed. -/
  | stop
  | reopen (survive memtableSize : ℕ)

namespace Database

/-- The `Lsm` of the database. -/
def lsm (d : Database) : Lsm := d.threads.lsm

/-- A database in a new directory. -/
def create (memtableSize : ℕ) : Database :=
  { threads := LsmThreads.start memtableSize Dir.empty [], compaction := none }

/-- The directory after a step of the compaction thread. -/
def withDir (d : Database) (dir : Dir) : Database :=
  { d with threads := { d.threads with lsm := { d.threads.lsm with dir } } }

/-- The database after a step. -/
def step (d : Database) : DatabaseStep → Database
  | .thread action => { d with threads := d.threads.step action }
  | .pick =>
      match d.compaction, d.lsm.dir.manifest with
      | none, some lines =>
          let c : Compactor := { dir := d.lsm.dir, manifest := Manifest.load lines }
          match c.pickCompaction with
          | none => d
          | some task =>
              { d with compaction := some ⟨task, c.manifest, Compactor.compactSteps c task⟩ }
      | _, _ => d
  | .install =>
      match d.compaction with
      | some ⟨task, manifest, action :: rest⟩ =>
          let c := Compactor.installStep task { dir := d.lsm.dir, manifest } action
          { d.withDir c.dir with compaction := some ⟨task, c.manifest, rest⟩ }
      | _ => d
  | .stop => { d with compaction := none }
  | .reopen survive memtableSize =>
      { threads := LsmThreads.start memtableSize (d.lsm.endSession survive) [], compaction := none }

end Database

/-! ## Sound tables -/

/-- All table files of the directory are sound. -/
def Dir.TablesSound (dir : Dir) : Prop := ∀ id sst, dir.ssts id = some sst → sst.Sound

namespace Lsm

/-- All tables in the levels and in the directory are sound. -/
structure TablesSound (s : Lsm) : Prop where
  levels : ∀ level, ∀ t ∈ s.levels level, t.Sound
  dir : s.dir.TablesSound

theorem sound_nextTable (s : Lsm) : s.nextTable.Sound :=
  MemTable.sound_flushedTable s.manifest.nextSstId s.memtable

theorem TablesSound.push {s s' : Lsm} (h : s.TablesSound)
    (hlevels : s'.levels = s.levels ∨
      s'.levels = Function.update s.levels 0 (s.levels 0 ++ [s.nextTable]))
    (hssts : s'.dir.ssts = s.dir.ssts ∨
      s'.dir.ssts = Function.update s.dir.ssts s.manifest.nextSstId (some s.nextTable)) :
    s'.TablesSound where
  levels := by
    intro level t ht
    rcases hlevels with hlevels | hlevels
    · rw [hlevels] at ht
      exact h.levels level t ht
    · rw [hlevels, Function.update_apply] at ht
      split at ht
      · rcases List.mem_append.mp ht with ht | ht
        · exact h.levels 0 t ht
        · rw [List.mem_singleton.mp ht]
          exact s.sound_nextTable
      · exact h.levels level t ht
  dir := by
    intro id sst hsst
    rcases hssts with hssts | hssts
    · rw [hssts] at hsst
      exact h.dir id sst hsst
    · rw [hssts, Function.update_apply] at hsst
      split at hsst
      · rw [← Option.some.inj hsst]
        exact s.sound_nextTable
      · exact h.dir id sst hsst

theorem TablesSound.rotateMemtable {s : Lsm} (h : s.TablesSound) (faults : Faults IoCall) :
    (exec (Lsm.rotateMemtable faults) s).2.TablesSound := by
  by_cases hnone : ∀ call ∈ rotationCalls, faults call = false
  · rw [rotateMemtable_succeeds s hnone]
    exact h.push (Or.inr (levels_rotate s)) (Or.inr rfl)
  · push Not at hnone
    have hstranded := rotateMemtable_fails s (by simpa using hnone : ∃ call ∈ rotationCalls, faults call = true)
    exact h.push (Or.inl hstranded.levels) hstranded.ssts

theorem TablesSound.openDir {dir : Dir} (h : dir.TablesSound) (memtableSize : ℕ) :
    (openDir memtableSize dir).TablesSound where
  levels := by
    intro level t ht
    obtain ⟨id, _, hid⟩ := List.mem_filterMap.mp ht
    exact h id t hid
  dir := h

end Lsm

namespace LsmThreads

theorem TablesSound.step {t : LsmThreads} (h : t.lsm.TablesSound) (action : ThreadStep) :
    (t.step action).lsm.TablesSound := by
  cases action with
  | draw op =>
      rw [LsmThreads.step]
      split
      · exact h
      · exact ⟨h.levels, h.dir⟩
  | finish call faults =>
      cases hdrawn : t.drawn call with
      | none =>
          rw [LsmThreads.step, hdrawn]
          exact h
      | some c =>
          obtain ⟨ts, op⟩ := c
          -- logging and inserting touch no table
          have hdir : (t.written ts op faults).dir = t.lsm.dir := by
            unfold written
            split
            · rfl
            · rw [Lsm.writes_eq]
          have hwritten : (t.written ts op faults).TablesSound := by
            refine ⟨?_, hdir ▸ h.dir⟩
            rw [levels_written]
            exact h.levels
          rw [LsmThreads.step, hdrawn]
          show (exec (op.finish faults ts) t.lsm).2.TablesSound
          rw [lsm_finish]
          split
          · exact hwritten.rotateMemtable faults
          · exact hwritten
  | sync faults =>
      rw [LsmThreads.step]
      show (exec (Lsm.sync faults) t.lsm).2.TablesSound
      unfold Lsm.sync
      rw [exec_attempt_bind_eq]
      split
      · exact h
      · exact ⟨h.levels, h.dir⟩

end LsmThreads

namespace Compactor

/-- The tables that the steps write are sound. -/
def StepsSound (steps : List InstallStep) : Prop := ∀ id sst, .create id sst ∈ steps → sst.Sound

theorem stepsSound_compactSteps {c : Compactor} (h : c.dir.TablesSound) (task : CompactionTask) :
    StepsSound (compactSteps c task) := by
  intro id sst hcreate
  unfold compactSteps at hcreate
  cases hopen : c.openAll task.inputSsts with
  | error e =>
      rw [hopen] at hcreate
      exact absurd hcreate List.not_mem_nil
  | ok ssts =>
      obtain rfl : ssts = c.tables task.inputSsts := openAll_eq_ok hopen
      have hinputs : ∀ t ∈ c.tables task.inputSsts, t.Sound := by
        intro t ht
        obtain ⟨id, _, hid⟩ := List.mem_filterMap.mp ht
        exact h id t hid
      obtain ⟨out, hmerged, hmerge⟩ := mergeTables_eq c.manifest.nextSstId hinputs
      simp only [hopen, hmerge, removalSteps] at hcreate
      -- the inputs are only removed
      simp only [List.mem_cons, List.mem_append, List.mem_flatMap, List.not_mem_nil, or_false,
        reduceCtorEq, and_false, exists_false, InstallStep.create.injEq] at hcreate
      obtain ⟨-, rfl⟩ := hcreate
      refine (SSTableBuilder.holds_build ..).sound ?_
      rw [List.pairwise_map]
      exact hmerged.sorted.imp le_of_lt

theorem TablesSound.installStep {c : Compactor} (h : c.dir.TablesSound) (task : CompactionTask)
    {action : InstallStep} (hsound : StepsSound [action]) :
    (installStep task c action).dir.TablesSound := by
  intro id sst hsst
  cases action with
  | create newId newSst =>
      have hsst : Function.update c.dir.ssts newId (some newSst) id = some sst := hsst
      rw [Function.update_apply] at hsst
      split at hsst
      · rw [← Option.some.inj hsst]
        exact hsound newId newSst (List.mem_singleton_self _)
      · exact h id sst hsst
  | del input => exact h id sst hsst
  | unlink input =>
      have hsst : Function.update c.dir.ssts input none id = some sst := hsst
      rw [Function.update_apply] at hsst
      split at hsst
      · contradiction
      · exact h id sst hsst
  | add newId => exact h id sst hsst

end Compactor

namespace Database

/-- The tables of the `Lsm` are sound, and those that a compaction under way still has to
write. -/
structure TablesSound (d : Database) : Prop where
  lsm : d.lsm.TablesSound
  compaction : ∀ r ∈ d.compaction, Compactor.StepsSound r.steps

theorem tablesSound_create (memtableSize : ℕ) : (create memtableSize).TablesSound where
  lsm := Lsm.TablesSound.openDir (fun _ _ hsst => by contradiction) memtableSize
  compaction := fun _ hr => absurd hr (Option.not_mem_none _)

theorem TablesSound.step {d : Database} (h : d.TablesSound) (action : DatabaseStep) :
    (d.step action).TablesSound := by
  cases action with
  | thread action => exact ⟨LsmThreads.TablesSound.step h.lsm action, h.compaction⟩
  | pick =>
      rw [Database.step]
      split
      · simp only
        split
        · exact h
        · refine ⟨h.lsm, ?_⟩
          intro r hr
          obtain rfl := Option.some.inj hr
          exact Compactor.stepsSound_compactSteps h.lsm.dir _
      · exact h
  | install =>
      rw [Database.step]
      split
      · next task manifest action rest hrunning =>
          have hsteps : Compactor.StepsSound (action :: rest) := h.compaction _ hrunning
          refine ⟨⟨h.lsm.levels, ?_⟩, ?_⟩
          · refine Compactor.TablesSound.installStep h.lsm.dir task fun id sst hcreate => ?_
            rw [List.mem_singleton] at hcreate
            exact hsteps id sst (hcreate ▸ List.mem_cons_self ..)
          · intro r hr
            obtain rfl := Option.some.inj hr
            exact fun id sst hcreate => hsteps id sst (List.mem_cons_of_mem _ hcreate)
      · exact h
  | stop => exact ⟨h.lsm, fun _ hr => absurd hr (Option.not_mem_none _)⟩
  | reopen survive memtableSize =>
      have hdir : (d.lsm.endSession survive).TablesSound := h.lsm.dir
      exact ⟨Lsm.TablesSound.openDir hdir memtableSize, fun _ hr => absurd hr (Option.not_mem_none _)⟩

/-- Whatever has happened to a database, its tables are sound. -/
theorem tablesSound_run (memtableSize : ℕ) (steps : List DatabaseStep) :
    (run step (create memtableSize) steps).TablesSound :=
  Run.invariant TablesSound (fun _ action h => h.step action) (tablesSound_create memtableSize)
    steps

end Database

/-! ## Opening the tables again -/

namespace Lsm

/-- The tables as `open_sst_iterator` finds them, each by its name. -/
def openTables (s : Lsm) : Except Error Lsm :=
  if ∀ level ∈ List.range 7, ∀ t ∈ s.levels level, (s.dir.ssts t.id).isSome then
    .ok { s with
      levels := fun level => (s.levels level).filterMap fun t =>
        (s.dir.ssts t.id).map fun sst => { sst with id := t.id } }
  else .error .io

theorem TablesSound.openTables {s opened : Lsm} (h : s.TablesSound)
    (hopen : s.openTables = .ok opened) : ∀ level, ∀ t ∈ opened.levels level, t.Sound := by
  unfold Lsm.openTables at hopen
  split at hopen
  · obtain rfl := Except.ok.inj hopen
    intro level t ht
    obtain ⟨old, _, hfound⟩ := List.mem_filterMap.mp ht
    obtain ⟨sst, hsst, rfl⟩ := Option.map_eq_some_iff.mp hfound
    have hsound : sst.Sound := h.dir old.id sst hsst
    have hholds : SSTable.Holds { sst with id := old.id } sst.entries :=
      { flatten_blocks := hsound.holds.flatten_blocks
        blocks_ne_nil := hsound.holds.blocks_ne_nil
        firstKeys := hsound.holds.firstKeys
        mayContain := hsound.holds.mayContain }
    exact hholds.sound hsound.sorted
  · contradiction

end Lsm
end Crabstash

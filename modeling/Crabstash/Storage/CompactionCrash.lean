import Crabstash.Foundations.Run
import Crabstash.Storage.CompactionOrder

/-!
# Crashes during a compaction

`compact` installs its table in single steps: the file of the new table, for each input a
`DEL` line and the removal of the file, and only then the line of the new table.  A crash
between two of them leaves what the steps so far have done (`crashed`), and opening the
directory finds the tables that the manifest lists and that still have a file (`stored`).

While the steps go on, the inputs vanish one after another and nothing takes their place,
so what is found stays the same exactly as long as the inputs that are gone are
`Redundant`.  After the last step the new table stands in for all inputs, in the output
level; whether it says the same is a matter of the order of reads again (`AgreesInPlace`).
`crash_keeps_iff` puts the two together.
-/

namespace Crabstash

open Crabstash.Action Run

/-! ## What opening a directory finds -/

/-- The places of a level, the level and a number each, in the order of reads. -/
def places (levels : ℕ → List ℕ) (level : ℕ) : List (ℕ × ℕ) :=
  (levels level).reverse.map fun id => (level, id)

/-- The places of all tables, in the order of reads. -/
def listed (levels : ℕ → List ℕ) : List (ℕ × ℕ) := (List.range 7).flatMap (places levels)

/-- The tables at these places, as far as they have a file. -/
def tablesAt (ssts : ℕ → Option SSTable) (places : List (ℕ × ℕ)) : List SSTable :=
  places.filterMap fun p => ssts p.2

/-- The tables that opening a directory finds, in the order of reads. -/
def stored (dir : Dir) : List SSTable :=
  tablesAt dir.ssts (listed (Manifest.load (dir.manifest.getD [])).levels)

theorem stored_eq (memtableSize : ℕ) (dir : Dir) :
    stored dir = (List.range 7).flatMap fun level =>
      ((Lsm.openDir memtableSize dir).levels level).reverse := by
  have hlevels : ∀ level, (Lsm.openDir memtableSize dir).levels level =
      ((Manifest.load (dir.manifest.getD [])).levels level).filterMap dir.ssts := by
    intro level
    unfold Lsm.openDir
    cases dir.manifest <;> rfl
  simp only [stored, tablesAt, listed, places, List.filterMap_flatMap, List.filterMap_map, hlevels,
    List.filterMap_reverse]
  rfl

/-- Every key reads the same in both directories. -/
def KeepsStored (dir dir' : Dir) : Prop :=
  ∀ key, newestIn (stored dir') key = newestIn (stored dir) key

theorem mem_places {levels : ℕ → List ℕ} {level : ℕ} {p : ℕ × ℕ} :
    p ∈ places levels level ↔ p.1 = level ∧ p.2 ∈ levels level := by
  obtain ⟨level', id⟩ := p
  simp only [places, List.mem_map, List.mem_reverse, Prod.mk.injEq]
  constructor
  · rintro ⟨id', hid, rfl, rfl⟩
    exact ⟨rfl, hid⟩
  · rintro ⟨rfl, hid⟩
    exact ⟨id, hid, rfl, rfl⟩

theorem mem_listed {levels : ℕ → List ℕ} {p : ℕ × ℕ} :
    p ∈ listed levels ↔ p.1 < 7 ∧ p.2 ∈ levels p.1 := by
  simp only [listed, List.mem_flatMap, List.mem_range, mem_places]
  constructor
  · rintro ⟨level, hlevel, rfl, hid⟩
    exact ⟨hlevel, hid⟩
  · rintro ⟨hlevel, hid⟩
    exact ⟨p.1, hlevel, rfl, hid⟩

theorem listed_filter (levels : ℕ → List ℕ) (P : ℕ × ℕ → Bool) :
    listed (fun level => (levels level).filter fun id => P (level, id)) =
      (listed levels).filter P := by
  unfold listed
  rw [List.filter_flatMap]
  apply List.flatMap_congr
  intro level _
  rw [places, places, List.filter_map, List.filter_reverse]
  rfl

/-- A number added to a level is the first of that level in the order of reads. -/
theorem listed_push (levels : ℕ → List ℕ) {level : ℕ} (hlevel : level < 7) (id : ℕ) :
    listed (Function.update levels level (levels level ++ [id])) =
      (listed levels).filter (fun p => decide (p.1 < level)) ++
        (level, id) :: (listed levels).filter (fun p => decide (level ≤ p.1)) := by
  have hsplit : List.range 7 = List.range level ++ level :: List.range' (level + 1) (6 - level) := by
    have hlength : 7 = level + (1 + (6 - level)) := by omega
    rw [hlength, List.range_eq_range', ← List.range'_append_1, ← List.range'_append_1,
      List.range_eq_range']
    simp
  have hbefore : (List.range level).flatMap
      (places (Function.update levels level (levels level ++ [id]))) =
        (List.range level).flatMap (places levels) := by
    apply List.flatMap_congr
    intro l hl
    rw [places, Function.update_of_ne (List.mem_range.mp hl).ne, places]
  have hafter : (List.range' (level + 1) (6 - level)).flatMap
      (places (Function.update levels level (levels level ++ [id]))) =
        (List.range' (level + 1) (6 - level)).flatMap (places levels) := by
    apply List.flatMap_congr
    intro l hl
    have hlt := (List.mem_range'_1.mp hl).1
    rw [places, Function.update_of_ne (by omega), places]
  have hown : places (Function.update levels level (levels level ++ [id])) level =
      (level, id) :: places levels level := by
    simp [places]
  -- the places above the level, those of the level and those below it
  have habove : ∀ p ∈ (List.range level).flatMap (places levels), p.1 < level := by
    simp only [List.mem_flatMap, List.mem_range, mem_places]
    rintro p ⟨l, hl, rfl, _⟩
    exact hl
  have hat : ∀ p ∈ places levels level, p.1 = level := fun p hp => (mem_places.mp hp).1
  have hbelow : ∀ p ∈ (List.range' (level + 1) (6 - level)).flatMap (places levels),
      level < p.1 := by
    simp only [List.mem_flatMap, List.mem_range'_1, mem_places]
    rintro p ⟨l, hl, rfl, _⟩
    exact hl.1
  unfold listed
  rw [hsplit]
  simp only [List.flatMap_append, List.flatMap_cons, List.filter_append]
  rw [hbefore, hafter, hown]
  rw [List.filter_eq_self.mpr fun p hp => decide_eq_true (habove p hp),
    List.filter_eq_nil_iff.mpr fun p hp => by simpa using (hat p hp).ge,
    List.filter_eq_nil_iff.mpr fun p hp => by simpa using (hbelow p hp).le]
  rw [List.filter_eq_nil_iff.mpr fun p hp => by simpa using habove p hp,
    List.filter_eq_self.mpr fun p hp => by simpa using (hat p hp).ge,
    List.filter_eq_self.mpr fun p hp => by simpa using (hbelow p hp).le]
  simp

/-- Places whose tables do not have the key can be left out. -/
theorem newestIn_filter {ssts : ℕ → Option SSTable} {key : Bytes} {P : ℕ × ℕ → Bool}
    {at_ : List (ℕ × ℕ)}
    (hothers : ∀ p ∈ at_, P p = false → ∀ sst, ssts p.2 = some sst → ¬ sst.Has key) :
    newestIn (tablesAt ssts (at_.filter P)) key = newestIn (tablesAt ssts at_) key := by
  induction at_ with
  | nil => rfl
  | cons p rest ih =>
      have hrest := ih fun p' hp' => hothers p' (List.mem_cons_of_mem _ hp')
      unfold newestIn tablesAt at hrest ⊢
      cases hP : P p with
      | true =>
          rw [List.filter_cons_of_pos hP, List.filterMap_cons, List.filterMap_cons]
          cases hsst : ssts p.2 with
          | none => exact hrest
          | some sst =>
              rw [List.findSome?_cons, List.findSome?_cons]
              cases sst.newest key with
              | none => exact hrest
              | some value => rfl
      | false =>
          rw [List.filter_cons_of_neg (by simp [hP]), List.filterMap_cons]
          cases hsst : ssts p.2 with
          | none => exact hrest
          | some sst =>
              have hnot := hothers p (List.mem_cons_self ..) hP sst hsst
              rw [List.findSome?_cons, SSTable.newest_eq_none hnot]
              exact hrest

namespace Compactor

/-! ## The steps of a compaction -/

/-- What `compact` does to the directory, one system call at a time. -/
inductive InstallStep where
  | create (id : ℕ) (sst : SSTable)
  | del (id : ℕ)
  | unlink (id : ℕ)
  | add (id : ℕ)

/-- The level that the `DEL` line of an input names. -/
def levelOf (c : Compactor) (task : CompactionTask) (id : ℕ) : ℕ :=
  if id ∈ c.manifest.levels task.level then task.level else task.outputLevel

/-- The directory and the manifest after such a call. -/
def installStep (task : CompactionTask) (c : Compactor) : InstallStep → Compactor
  | .create id sst => c.allocated.withFile id (some sst)
  | .del id => c.record (.del (c.levelOf task id) id)
  | .unlink id => c.withFile id none
  | .add id => c.record (.sst task.outputLevel id)

/-- The steps that take the inputs away. -/
def removalSteps (ids : List ℕ) : List InstallStep :=
  ids.flatMap fun id => [.del id, .unlink id]

/-- What `compact` does to the directory; nothing if an input cannot be opened. -/
def compactSteps (c : Compactor) (task : CompactionTask) : List InstallStep :=
  match c.openAll task.inputSsts with
  | .error _ => []
  | .ok ssts =>
      match mergeTables c.manifest.nextSstId ssts with
      | .error _ => []
      | .ok sst =>
          .create c.manifest.nextSstId sst ::
            (removalSteps task.inputSsts ++ [.add c.manifest.nextSstId])

/-- A compaction that has got through its first `n` steps. -/
def crashed (c : Compactor) (task : CompactionTask) (n : ℕ) : Compactor :=
  run (installStep task) c ((compactSteps c task).take n)

theorem run_removalSteps (task : CompactionTask) (ids : List ℕ) (c : Compactor) :
    run (installStep task) c (removalSteps ids) = removed task ids c := by
  induction ids generalizing c with
  | nil => rfl
  | cons id rest ih => exact ih _

/-- The place that the next `DEL` line takes away, after those in `gone`. -/
def deletion (c : Compactor) (task : CompactionTask) (gone : List (ℕ × ℕ)) (id : ℕ) : ℕ × ℕ :=
  (if id ∈ c.manifest.levels task.level ∧ (task.level, id) ∉ gone then task.level
    else task.outputLevel, id)

/-- The places that the `DEL` lines of some inputs take away. -/
def deletions (c : Compactor) (task : CompactionTask) (gone : List (ℕ × ℕ)) (ids : List ℕ) :
    List (ℕ × ℕ) :=
  ids.foldl (fun gone id => gone ++ [c.deletion task gone id]) gone

/-- A compactor that differs from the first one by places gone from the manifest and files
gone from the directory, and by the file of the new table. -/
structure Lacks (c : Compactor) (gone : List (ℕ × ℕ)) (unlinked : List ℕ) (c' : Compactor) :
    Prop where
  file : ∃ lines, c'.dir.manifest = some lines ∧ (Manifest.load lines).levels = c'.manifest.levels
  levels : ∀ level, c'.manifest.levels level =
    (c.manifest.levels level).filter fun id => decide ((level, id) ∉ gone)
  ssts : ∀ id, id ≠ c.manifest.nextSstId →
    c'.dir.ssts id = if id ∈ unlinked then none else c.dir.ssts id

section Steps

variable {c c' : Compactor} {task : CompactionTask} {gone : List (ℕ × ℕ)} {unlinked : List ℕ}

theorem record_file (line : ManifestLine) {lines : List ManifestLine}
    (hfile : c'.dir.manifest = some lines)
    (hlevels : (Manifest.load lines).levels = c'.manifest.levels) :
    ∃ lines', (c'.record line).dir.manifest = some lines' ∧
      (Manifest.load lines').levels = (c'.record line).manifest.levels := by
  refine ⟨lines ++ [line], ?_, ?_⟩
  · show c'.dir.manifest.map (· ++ [line]) = _
    rw [hfile]
    rfl
  · rw [Manifest.load_append]
    show _ = (c'.manifest.applyLine line).levels
    cases line with
    | sst level id => simp only [Manifest.applyLine, hlevels]
    | del level id => simp only [Manifest.applyLine, hlevels]
    | wal id => exact hlevels

theorem Lacks.del (h : Lacks c gone unlinked c') (task : CompactionTask) (id : ℕ) :
    Lacks c (gone ++ [c.deletion task gone id]) unlinked (installStep task c' (.del id)) where
  file := by
    obtain ⟨lines, hfile, hlevels⟩ := h.file
    exact record_file _ hfile hlevels
  levels := by
    intro level
    -- the level of the line is that of the table while it is still listed
    have hlevelOf : c'.levelOf task id = (c.deletion task gone id).1 := by
      simp only [levelOf, deletion, h.levels, List.mem_filter, decide_eq_true_iff]
    have hdeleted : c.deletion task gone id = (c'.levelOf task id, id) := by
      rw [hlevelOf]
      rfl
    have happlied : (installStep task c' (.del id)).manifest.levels level =
        if level = c'.levelOf task id then (c'.manifest.levels level).filter (· ≠ id)
        else c'.manifest.levels level := by
      show Function.update c'.manifest.levels (c'.levelOf task id)
        ((c'.manifest.levels (c'.levelOf task id)).filter (· ≠ id)) level = _
      rw [Function.update_apply]
      split
      · next heq => rw [heq]
      · rfl
    rw [happlied, hdeleted, h.levels level]
    split
    · next heq =>
        rw [List.filter_filter]
        apply List.filter_congr
        intro id' _
        simp [heq, and_comm]
    · next hne =>
        apply List.filter_congr
        intro id' _
        simp [hne]
  ssts := h.ssts

theorem Lacks.unlink (h : Lacks c gone unlinked c') (task : CompactionTask) (id : ℕ) :
    Lacks c gone (unlinked ++ [id]) (installStep task c' (.unlink id)) where
  file := h.file
  levels := h.levels
  ssts := by
    intro id' hid'
    show Function.update c'.dir.ssts id none id' = _
    rw [Function.update_apply, h.ssts id' hid']
    by_cases heq : id' = id
    · simp [heq]
    · simp [heq]

/-- The removal of the inputs, stopped after `k` steps. -/
theorem Lacks.removal (h : Lacks c gone unlinked c') (task : CompactionTask) (ids : List ℕ)
    (k : ℕ) :
    Lacks c (c.deletions task gone (ids.take ((k + 1) / 2))) (unlinked ++ ids.take (k / 2))
      (run (installStep task) c' ((removalSteps ids).take k)) := by
  induction ids generalizing c' gone unlinked k with
  | nil => simpa [deletions, removalSteps] using h
  | cons id rest ih =>
      match k with
      | 0 => simpa [deletions] using h
      | 1 =>
          have hdel : Lacks c (gone ++ [c.deletion task gone id]) unlinked _ := h.del task id
          simpa [deletions, removalSteps] using hdel
      | k + 2 =>
          have hboth := ih ((h.del task id).unlink task id) k
          have hup : (k + 2 + 1) / 2 = (k + 1) / 2 + 1 := by omega
          have hdown : (k + 2) / 2 = k / 2 + 1 := by omega
          rw [hup, hdown, List.take_succ_cons, List.take_succ_cons]
          simpa [deletions, removalSteps, List.append_assoc] using hboth

/-- The tables that a compactor still finds, out of those of some places. -/
theorem Lacks.tablesAt_eq (h : Lacks c gone unlinked c') (hnumbered : c.manifest.Numbered)
    (Q : ℕ × ℕ → Bool) :
    tablesAt c'.dir.ssts ((listed c'.manifest.levels).filter Q) = tablesAt c.dir.ssts
      (((listed c.manifest.levels).filter fun p =>
        decide (p ∉ gone ∧ p.2 ∉ unlinked)).filter Q) := by
  have hlisted : listed c'.manifest.levels =
      (listed c.manifest.levels).filter fun p => decide (p ∉ gone) := by
    rw [← listed_filter]
    congr 1
    funext level
    exact h.levels level
  rw [hlisted, List.filter_filter, List.filter_filter, tablesAt, tablesAt,
    List.filterMap_filter, List.filterMap_filter]
  apply List.filterMap_congr
  intro p hp
  have hne : p.2 ≠ c.manifest.nextSstId := (hnumbered.sst p.1 p.2 (mem_listed.mp hp).2).ne
  rw [h.ssts p.2 hne]
  by_cases hgone : p ∈ gone
  · simp [hgone]
  · by_cases hunlinked : p.2 ∈ unlinked
    · simp [hgone, hunlinked]
    · simp [hgone, hunlinked]

theorem Lacks.stored_eq (h : Lacks c gone unlinked c') (hnumbered : c.manifest.Numbered) :
    stored c'.dir = tablesAt c.dir.ssts
      ((listed c.manifest.levels).filter fun p => decide (p ∉ gone ∧ p.2 ∉ unlinked)) := by
  obtain ⟨lines, hfile, hlevels⟩ := h.file
  have hall := h.tablesAt_eq hnumbered fun _ => true
  rw [List.filter_true, List.filter_true] at hall
  rw [stored, hfile, Option.getD_some, hlevels, hall]

end Steps

/-! ## Which crashes keep everything -/

/-- The places left of the old ones after `n` steps: those that no `DEL` line has taken
away and whose file has not been removed. -/
def kept (c : Compactor) (task : CompactionTask) (n : ℕ) : List (ℕ × ℕ) :=
  (listed c.manifest.levels).filter fun p =>
    decide (p ∉ c.deletions task [] (task.inputSsts.take (n / 2)) ∧
      p.2 ∉ task.inputSsts.take ((n - 1) / 2))

/-- Of the keys in the tables that are gone after `n` steps, the tables that are left say
the same as all tables before. -/
def Redundant (c : Compactor) (task : CompactionTask) (n : ℕ) : Prop :=
  ∀ p ∈ listed c.manifest.levels, p ∉ c.kept task n → ∀ sst, c.dir.ssts p.2 = some sst →
    ∀ key, sst.Has key →
      newestIn (tablesAt c.dir.ssts (c.kept task n)) key =
        newestIn (tablesAt c.dir.ssts (listed c.manifest.levels)) key

/-- With the inputs, in the order of the task, at the head of the output level, every key
reads as it did with the inputs in their places. -/
def AgreesInPlace (c : Compactor) (task : CompactionTask) : Prop :=
  ∀ key, newestIn
      (tablesAt c.dir.ssts ((c.kept task (2 * task.inputSsts.length + 2)).filter
          fun p => decide (p.1 < task.outputLevel)) ++
        (c.tables task.inputSsts ++
          tablesAt c.dir.ssts ((c.kept task (2 * task.inputSsts.length + 2)).filter
            fun p => decide (task.outputLevel ≤ p.1)))) key =
    newestIn (tablesAt c.dir.ssts (listed c.manifest.levels)) key

theorem newestIn_append (a b : List SSTable) (key : Bytes) :
    newestIn (a ++ b) key = (newestIn a key).or (newestIn b key) := List.findSome?_append

theorem newestIn_cons (sst : SSTable) (rest : List SSTable) (key : Bytes) :
    newestIn (sst :: rest) key = (sst.newest key).or (newestIn rest key) := by
  unfold newestIn
  rw [List.findSome?_cons]
  cases sst.newest key <;> rfl

theorem redundant_iff {c : Compactor} {task : CompactionTask} {n : ℕ} :
    c.Redundant task n ↔ ∀ key, newestIn (tablesAt c.dir.ssts (c.kept task n)) key =
      newestIn (tablesAt c.dir.ssts (listed c.manifest.levels)) key := by
  constructor
  · intro hredundant key
    by_cases hkey : ∃ p ∈ listed c.manifest.levels, p ∉ c.kept task n ∧
        ∃ sst, c.dir.ssts p.2 = some sst ∧ sst.Has key
    · obtain ⟨p, hp, hgone, sst, hsst, hhas⟩ := hkey
      exact hredundant p hp hgone sst hsst key hhas
    · apply newestIn_filter
      intro p hp hgone sst hsst hhas
      refine hkey ⟨p, hp, ?_, sst, hsst, hhas⟩
      intro hkept
      have htrue := (List.mem_filter.mp hkept).2
      rw [hgone] at htrue
      contradiction
  · intro hall p _ _ sst _ key _
    exact hall key

/-- A task puts its table into one of the levels that are read. -/
theorem outputLevel_lt {c : Compactor} {task : CompactionTask}
    (hpick : c.pickCompaction = some task) : task.outputLevel < 7 := by
  obtain ⟨-, rfl⟩ | ⟨level, inputId, rest, hlevel, -, rfl⟩ := pickCompaction_cases hpick
  · show 1 < 7
    omega
  · show level + 1 < 7
    omega

section Crash

variable {c : Compactor} {task : CompactionTask}

theorem compactSteps_eq {sst : SSTable} (hopen : c.openAll task.inputSsts = .ok (c.tables task.inputSsts))
    (hmerge : mergeTables c.manifest.nextSstId (c.tables task.inputSsts) = .ok sst) :
    compactSteps c task = .create c.manifest.nextSstId sst ::
      (removalSteps task.inputSsts ++ [.add c.manifest.nextSstId]) := by
  rw [compactSteps, hopen]
  simp only [hmerge]

theorem length_removalSteps (ids : List ℕ) : (removalSteps ids).length = 2 * ids.length := by
  induction ids with
  | nil => rfl
  | cons id rest ih =>
      have hcons : (removalSteps (id :: rest)).length = (removalSteps rest).length + 2 := by
        simp [removalSteps]
      rw [hcons, ih, List.length_cons]
      omega

/-- Before the last step some places and files are gone, and nothing else has changed. -/
theorem lacks_crashed {sst : SSTable} {lines : List ManifestLine}
    (hfile : c.dir.manifest = some lines) (hload : (Manifest.load lines).levels = c.manifest.levels)
    (hsteps : compactSteps c task = .create c.manifest.nextSstId sst ::
      (removalSteps task.inputSsts ++ [.add c.manifest.nextSstId])) {n : ℕ}
    (hn : n ≤ 2 * task.inputSsts.length + 1) :
    Lacks c (c.deletions task [] (task.inputSsts.take (n / 2))) (task.inputSsts.take ((n - 1) / 2))
      (crashed c task n) := by
  have hstart : ∀ level, c.manifest.levels level =
      (c.manifest.levels level).filter fun id => decide ((level, id) ∉ ([] : List (ℕ × ℕ))) := by
    intro level
    simp
  cases n with
  | zero => exact ⟨⟨lines, hfile, hload⟩, hstart, fun id _ => by simp; rfl⟩
  | succ k =>
      have hcreated : Lacks c [] [] (installStep task c (.create c.manifest.nextSstId sst)) := by
        refine ⟨⟨lines, hfile, hload⟩, hstart, ?_⟩
        intro id hid
        exact Function.update_of_ne hid ..
      have hrun : crashed c task (k + 1) = run (installStep task)
          (installStep task c (.create c.manifest.nextSstId sst))
          ((removalSteps task.inputSsts).take k) := by
        have hk : k ≤ (removalSteps task.inputSsts).length := by
          rw [length_removalSteps]
          omega
        rw [crashed, hsteps, List.take_succ_cons, run_cons, List.take_append_of_le_length hk]
      rw [hrun]
      exact hcreated.removal task task.inputSsts k

/-- What opening the directory finds after the last step. -/
theorem stored_crashed_all {sst : SSTable} {lines : List ManifestLine}
    (hfile : c.dir.manifest = some lines) (hload : (Manifest.load lines).levels = c.manifest.levels)
    (hsteps : compactSteps c task = .create c.manifest.nextSstId sst ::
      (removalSteps task.inputSsts ++ [.add c.manifest.nextSstId]))
    (hnumbered : c.manifest.Numbered) (houtput : task.outputLevel < 7)
    (hfresh : c.manifest.nextSstId ∉ task.inputSsts) {n : ℕ}
    (hn : 2 * task.inputSsts.length + 1 < n) :
    stored (crashed c task n).dir =
      tablesAt c.dir.ssts ((c.kept task (2 * task.inputSsts.length + 2)).filter
          fun p => decide (p.1 < task.outputLevel)) ++
        sst :: tablesAt c.dir.ssts ((c.kept task (2 * task.inputSsts.length + 2)).filter
          fun p => decide (task.outputLevel ≤ p.1)) := by
  have hremoved : crashed c task (2 * task.inputSsts.length + 1) =
      removed task task.inputSsts (c.allocated.withFile c.manifest.nextSstId (some sst)) := by
    rw [crashed, hsteps, List.take_succ_cons, run_cons, ← length_removalSteps,
      List.take_append_of_le_length le_rfl, List.take_length, run_removalSteps]
    rfl
  have hlacks := lacks_crashed hfile hload hsteps (le_refl (2 * task.inputSsts.length + 1))
  have hnew : (crashed c task (2 * task.inputSsts.length + 1)).dir.ssts c.manifest.nextSstId =
      some sst := by
    rw [hremoved, ssts_removed task hfresh]
    exact Function.update_self ..
  -- one step is left: the line of the new table
  have hall : crashed c task n =
      (crashed c task (2 * task.inputSsts.length + 1)).record
        (.sst task.outputLevel c.manifest.nextSstId) := by
    have hlength : (compactSteps c task).length ≤ n := by
      rw [hsteps, List.length_cons, List.length_append, length_removalSteps]
      exact hn
    rw [crashed, List.take_of_length_le hlength, hremoved, hsteps, run_cons, run_append,
      run_removalSteps]
    rfl
  have hkept : c.kept task (2 * task.inputSsts.length + 2) =
      (listed c.manifest.levels).filter fun p =>
        decide (p ∉ c.deletions task []
            (task.inputSsts.take ((2 * task.inputSsts.length + 1) / 2)) ∧
          p.2 ∉ task.inputSsts.take ((2 * task.inputSsts.length + 1 - 1) / 2)) := by
    rw [kept, List.take_of_length_le (by omega), List.take_of_length_le (by omega),
      List.take_of_length_le (by omega), List.take_of_length_le (by omega)]
  obtain ⟨lines', hfile', hlevels'⟩ := hlacks.file
  obtain ⟨lines'', hfile'', hlevels''⟩ :=
    record_file (.sst task.outputLevel c.manifest.nextSstId) hfile' hlevels'
  have hlisted := listed_push
    (crashed c task (2 * task.inputSsts.length + 1)).manifest.levels houtput c.manifest.nextSstId
  rw [hall, stored, hfile'', Option.getD_some, hlevels'', hkept,
    ← hlacks.tablesAt_eq hnumbered, ← hlacks.tablesAt_eq hnumbered]
  show tablesAt _ (listed (Function.update _ _ _)) = _
  rw [hlisted, tablesAt, List.filterMap_append, List.filterMap_cons]
  simp only [record, logLine, hnew]
  rfl

end Crash

/-- A crash after `n` steps of a compaction keeps what opening the directory finds, for
every key, if and only if an input could not be opened, so that nothing was done; or the
inputs gone by then are redundant; or all steps were done and the new table agrees. -/
theorem crash_keeps_iff (lines : List ManifestLine) (dir : Dir)
    (hmanifest : dir.manifest = some lines)
    (hsound : ∀ id sst, dir.ssts id = some sst → sst.Sound) {task : CompactionTask}
    (hpick : pickCompaction ⟨dir, Manifest.load lines⟩ = some task) (n : ℕ) :
    KeepsStored dir (crashed ⟨dir, Manifest.load lines⟩ task n).dir ↔
      (∃ e, openAll ⟨dir, Manifest.load lines⟩ task.inputSsts = .error e) ∨
      (if n ≤ 2 * task.inputSsts.length + 1 then
        Redundant ⟨dir, Manifest.load lines⟩ task n
      else AgreesInPlace ⟨dir, Manifest.load lines⟩ task) := by
  have hnumbered := Manifest.numbered_load lines
  obtain ⟨_, hlevels⟩ := pickCompaction_spec hpick
  have houtput := outputLevel_lt hpick
  have hbefore : stored dir = tablesAt dir.ssts (listed (Manifest.load lines).levels) := by
    rw [stored, hmanifest, Option.getD_some]
  generalize hc : (⟨dir, Manifest.load lines⟩ : Compactor) = c at hlevels ⊢
  have hdir : c.dir = dir := by rw [← hc]
  have hload : (Manifest.load lines).levels = c.manifest.levels := by rw [← hc]
  have hfile : c.dir.manifest = some lines := by rw [hdir, hmanifest]
  have hnumbered : c.manifest.Numbered := by
    rw [← hc]
    exact hnumbered
  rw [hload, ← hdir] at hbefore
  rw [← hdir]
  cases hopen : c.openAll task.inputSsts with
  | error e =>
      -- an input cannot be opened: the compaction ends before it does anything
      have hnothing : crashed c task n = c := by
        rw [crashed, compactSteps, hopen]
        simp
      rw [hnothing]
      exact iff_of_true (fun key => rfl) (Or.inl ⟨e, rfl⟩)
  | ok ssts =>
      obtain rfl : ssts = c.tables task.inputSsts := openAll_eq_ok hopen
      have hinputs : ∀ t ∈ c.tables task.inputSsts, t.Sound := by
        intro t ht
        obtain ⟨id, _, hid⟩ := List.mem_filterMap.mp ht
        rw [hdir] at hid
        exact hsound id t hid
      obtain ⟨sst, hmerge, _, _, hnewest⟩ := mergeTables_spec hinputs c.manifest.nextSstId
      have hsteps := compactSteps_eq hopen hmerge
      have hopened :
          ¬ ∃ e : Error, (Except.ok (c.tables task.inputSsts) : Except Error _) = .error e := by
        rintro ⟨e, he⟩
        contradiction
      rw [or_iff_right hopened]
      unfold KeepsStored
      rw [hbefore]
      split
      · next hn =>
          -- the new table is not in the manifest yet, and some of the inputs are gone
          rw [(lacks_crashed hfile hload hsteps hn).stored_eq hnumbered, redundant_iff, kept]
      · next hn =>
          -- the new table has its own number
          have hfresh : c.manifest.nextSstId ∉ task.inputSsts := by
            intro hin
            rcases hlevels _ hin with hin | hin
            · exact lt_irrefl _ (hnumbered.sst _ _ hin)
            · exact lt_irrefl _ (hnumbered.sst _ _ hin)
          rw [stored_crashed_all hfile hload hsteps hnumbered houtput hfresh (by omega)]
          unfold AgreesInPlace
          simp only [newestIn_append, newestIn_cons, hnewest]

/-- After the first input is gone, the fourth still has its key with the same value. -/
theorem crash_keeps_repeatedEntry :
    KeepsStored (fourTables repeatedEntry)
      (crashed ⟨fourTables repeatedEntry,
        Manifest.load [.sst 0 1, .sst 0 2, .sst 0 3, .sst 0 4]⟩ ⟨0, [1, 2, 3, 4], 1⟩ 3).dir := by
  refine (crash_keeps_iff [.sst 0 1, .sst 0 2, .sst 0 3, .sst 0 4] _ rfl
    (sound_fourTables repeatedEntry) (by decide) 3).mpr (Or.inr ?_)
  rw [if_pos (by decide)]
  intro p hp hgone
  have hfirst : p = (0, 1) := by
    revert p
    decide
  subst hfirst
  intro sst hsst key hkey
  obtain rfl := Option.some.inj hsst
  have hentries : (SSTableBuilder.build 1 1 [repeatedEntry 1]).entries = [repeatedEntry 1] :=
    (SSTableBuilder.holds_build 1 1 [repeatedEntry 1]).flatten_blocks
  obtain ⟨e, he, rfl⟩ := hkey
  obtain rfl : e = repeatedEntry 1 := List.mem_singleton.mp (hentries ▸ he)
  decide +kernel

/-- The key of the first input is lost when the process dies after removing its file. -/
theorem not_crash_keeps :
    pickCompaction ⟨fourTables fun id => ([UInt8.ofNat id], some []),
      Manifest.load [.sst 0 1, .sst 0 2, .sst 0 3, .sst 0 4]⟩ = some ⟨0, [1, 2, 3, 4], 1⟩ ∧
    ¬ KeepsStored (fourTables fun id => ([UInt8.ofNat id], some []))
      (crashed ⟨fourTables fun id => ([UInt8.ofNat id], some []),
        Manifest.load [.sst 0 1, .sst 0 2, .sst 0 3, .sst 0 4]⟩ ⟨0, [1, 2, 3, 4], 1⟩ 3).dir := by
  refine ⟨by decide, ?_⟩
  intro hkeeps
  have hlost := hkeeps [1]
  exact absurd hlost (by decide +kernel)

end Compactor
end Crabstash

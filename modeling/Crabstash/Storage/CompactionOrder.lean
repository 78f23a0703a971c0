import Crabstash.Storage.Compaction

/-!
# Compaction and the order of reads

A compaction replaces its inputs by one table.  A read that goes through tables
takes the entry of the first table that has the key, so what the new table has
to say about a key is what the first of its inputs *in the order of reads* says
(`KeepsNewest`).  What it does say is what the first of the inputs *in the order
of the task* says, `entries_compact`, and the task has the tables of level 0 from
the oldest to the newest.

So the new table is right if and only if the two orders come to the same for
every key (`compact_keepsNewest_iff`).
-/

namespace Crabstash

open Crabstash.Action

/-- The newest version of a key in tables that are asked in this order. -/
def newestIn (tables : List SSTable) (key : Bytes) : Option (Option Bytes) :=
  tables.findSome? fun t => t.newest key

/-- Merged tables: the entry of a key is that of the first table that has it. -/
theorem Merged.newestIn_eq {ssts : List SSTable} {out : List Item}
    (h : Merged (· ≤ ·) (inputs (ssts.map SSTableIterator.items)) out) {item : Item}
    (hitem : item ∈ out) : newestIn ssts item.1.data = some item.2 := by
  obtain ⟨i, hfirst, hothers⟩ := h.best item hitem
  have hfirstOf : ∀ (j : ℕ) (hj : j < ssts.length), firstOf item.1.data
      (inputs (ssts.map SSTableIterator.items) j) =
        (ssts[j].entries.find? fun e => decide (e.1 = item.1.data)).map SSTableIterator.itemOf := by
    intro j hj
    have hinput : inputs (ssts.map SSTableIterator.items) j = SSTableIterator.items ssts[j] := by
      simp [inputs, hj]
    rw [hinput, SSTableIterator.firstOf_items]
  have hi : i < ssts.length := by
    by_contra hge
    have hnil : inputs (ssts.map SSTableIterator.items) i = [] := by
      apply inputs_of_le
      simpa using hge
    rw [hnil] at hfirst
    contradiction
  rw [hfirstOf i hi, Option.map_eq_some_iff] at hfirst
  obtain ⟨e, he, rfl⟩ := hfirst
  refine List.findSome?_eq_some_iff.mpr ⟨ssts.take i, ssts[i], ssts.drop (i + 1), ?_, ?_, ?_⟩
  · rw [← List.drop_eq_getElem_cons hi, List.take_append_drop]
  · rw [SSTable.newest, he]
    rfl
  · intro t ht
    obtain ⟨j, hj, rfl⟩ := List.mem_iff_getElem.mp ht
    rw [List.length_take] at hj
    have hji : j < i := lt_of_lt_of_le hj (min_le_left ..)
    rw [List.getElem_take]
    by_contra hsome
    have hfound := mt Option.map_eq_none_iff.mpr hsome
    obtain ⟨e', he'⟩ := Option.ne_none_iff_exists'.mp hfound
    -- tables have no timestamps, so the other entry stands on the same key
    have hdata : e'.1 = (SSTableIterator.itemOf e).1.data := by simpa using List.find?_some he'
    have hdata : e'.1 = e.1 := hdata
    have hother := hothers j (SSTableIterator.itemOf e') (by
      rw [hfirstOf j (hji.trans hi), he']
      rfl)
    have hsame : (SSTableIterator.itemOf e').1 = (SSTableIterator.itemOf e).1 :=
      congrArg (Key.mk · 0) hdata
    rcases hother with hlt | ⟨_, hle⟩
    · exact absurd hsame hlt.ne'
    · exact absurd hle (not_le.mpr hji)

namespace Compactor

/-- The tables with these numbers. -/
def tables (c : Compactor) (ids : List ℕ) : List SSTable := ids.filterMap c.dir.ssts

theorem openAll_eq_ok {c : Compactor} {ids : List ℕ} {ssts : List SSTable}
    (hopen : c.openAll ids = .ok ssts) : ssts = c.tables ids := by
  induction ids generalizing ssts with
  | nil => exact (Except.ok.inj hopen).symm
  | cons id rest ih =>
      rw [openAll] at hopen
      cases hsst : c.dir.ssts id with
      | none =>
          rw [hsst] at hopen
          contradiction
      | some sst =>
          rw [hsst] at hopen
          cases hrest : c.openAll rest with
          | error e =>
              rw [hrest] at hopen
              contradiction
          | ok others =>
              rw [hrest] at hopen
              have hcons : ssts = sst :: others := (Except.ok.inj hopen).symm
              rw [hcons, ih hrest, tables, tables, List.filterMap_cons, hsst]

/-! ## The task -/

/-- The inputs of a task in the order in which a read comes to them. -/
def probeOrder (c : Compactor) (task : CompactionTask) : List ℕ :=
  ((c.manifest.levels task.level).reverse ++ (c.manifest.levels task.outputLevel).reverse).filter
    fun id => id ∈ task.inputSsts

/-- A task is for the tables of levels 0 and 1, or for the first table of a deeper level and the
tables of the next level that overlap it. -/
theorem pickCompaction_cases {c : Compactor} {task : CompactionTask}
    (hpick : c.pickCompaction = some task) :
    (level0CompactionTrigger ≤ (c.manifest.levels 0).length ∧
      task = { level := 0, inputSsts := c.manifest.levels 0 ++ c.manifest.levels 1,
               outputLevel := 1 }) ∨
    ∃ level inputId rest, (1 ≤ level ∧ level < 6) ∧ c.manifest.levels level = inputId :: rest ∧
      task = { level, inputSsts := inputId :: c.overlapping inputId level,
               outputLevel := level + 1 } := by
  unfold pickCompaction at hpick
  split at hpick
  · next htrigger => exact Or.inl ⟨htrigger, (Option.some.inj hpick).symm⟩
  · obtain ⟨level, hlevel, hpicked⟩ := List.exists_of_findSome?_eq_some hpick
    have hrange : 1 ≤ level ∧ level < 6 := by
      simpa using List.mem_range'_1.mp hlevel
    unfold pickLevel at hpicked
    split at hpicked
    · contradiction
    · next inputId rest hinputs =>
        simp only at hpicked
        split at hpicked
        · exact Or.inr ⟨level, inputId, rest, hrange, hinputs, (Option.some.inj hpicked).symm⟩
        · contradiction

/-- A task has inputs, and they are in the two levels it is about. -/
theorem pickCompaction_spec {c : Compactor} {task : CompactionTask}
    (hpick : c.pickCompaction = some task) : task.inputSsts ≠ [] ∧ ∀ id ∈ task.inputSsts,
      id ∈ c.manifest.levels task.level ∨ id ∈ c.manifest.levels task.outputLevel := by
  obtain ⟨htrigger, rfl⟩ | ⟨level, inputId, rest, -, hinputs, rfl⟩ := pickCompaction_cases hpick
  · constructor
    · intro hnil
      have hlevel : c.manifest.levels 0 = [] := (List.append_eq_nil_iff.mp hnil).1
      rw [hlevel] at htrigger
      exact absurd htrigger (by decide)
    · intro id hid
      exact List.mem_append.mp hid
  · refine ⟨List.cons_ne_nil _ _, ?_⟩
    intro id hid
    rcases List.mem_cons.mp hid with rfl | hid
    · left
      show id ∈ c.manifest.levels level
      rw [hinputs]
      exact List.mem_cons_self ..
    · right
      unfold overlapping at hid
      split at hid
      · exact absurd hid List.not_mem_nil
      · exact (List.mem_filter.mp hid).1

/-! ## What compacting leaves -/

/-- The number for the new table drawn. -/
def allocated (c : Compactor) : Compactor := { c with manifest := (c.manifest.allocateSstId).2 }

/-- A file of the directory replaced. -/
def withFile (c : Compactor) (id : ℕ) (sst : Option SSTable) : Compactor :=
  { c with dir := { c.dir with ssts := Function.update c.dir.ssts id sst } }

/-- A line of the manifest, in the file and in memory. -/
def record (c : Compactor) (line : ManifestLine) : Compactor :=
  { c.logLine line with manifest := c.manifest.applyLine line }

/-- The inputs out of the manifest, and their files deleted. -/
def removed (task : CompactionTask) : List ℕ → Compactor → Compactor
  | [], c => c
  | id :: rest, c =>
      let level := if id ∈ c.manifest.levels task.level then task.level else task.outputLevel
      removed task rest ((c.record (.del level id)).withFile id none)

theorem exec_removeInputs (task : CompactionTask) (ids : List ℕ) (c : Compactor) :
    exec (removeInputs noFaults task ids) c = (.ok (), removed task ids c) := by
  induction ids generalizing c with
  | nil => rfl
  | cons id rest ih => exact ih _

theorem ssts_removed (task : CompactionTask) {ids : List ℕ} {id : ℕ} (hid : id ∉ ids)
    (c : Compactor) : (removed task ids c).dir.ssts id = c.dir.ssts id := by
  induction ids generalizing c with
  | nil => rfl
  | cons first rest ih =>
      rw [List.mem_cons, not_or] at hid
      rw [removed, ih hid.2]
      exact Function.update_of_ne hid.1 ..

theorem exec_compact_of_error {c : Compactor} {task : CompactionTask} (hne : task.inputSsts ≠ [])
    {e : Error} (hopen : c.openAll task.inputSsts = .error e) :
    exec (compact noFaults task) c = (.error e, c) := by
  have hnonempty : ¬ task.inputSsts.isEmpty = true := by simpa using hne
  rw [compact, if_neg hnonempty, exec_get_bind, exec_attempt_bind, hopen,
    exec_ofExcept_error_bind]

/-- On a healthy file system, from inputs that can be opened and merged. -/
theorem exec_compact {c : Compactor} {task : CompactionTask} (hne : task.inputSsts ≠ [])
    {ssts : List SSTable} (hopen : c.openAll task.inputSsts = .ok ssts) {sst : SSTable}
    (hmerge : mergeTables c.manifest.nextSstId ssts = .ok sst) :
    exec (compact noFaults task) c = (.ok [c.manifest.nextSstId],
      (removed task task.inputSsts (c.allocated.withFile c.manifest.nextSstId (some sst))).record
        (.sst task.outputLevel c.manifest.nextSstId)) := by
  have hnonempty : ¬ task.inputSsts.isEmpty = true := by simpa using hne
  rw [compact, if_neg hnonempty, exec_get_bind, exec_attempt_bind, hopen, exec_ofExcept_bind,
    exec_modifyGet_bind, exec_attempt_bind]
  have hsstId : (c.manifest.allocateSstId).1 = c.manifest.nextSstId := rfl
  rw [hsstId, hmerge, exec_ofExcept_bind, exec_modify_bind,
    exec_bind_ok (exec_removeInputs task task.inputSsts _)]
  rfl

/-! ## The new table -/

/-- The table has what a read finds in the inputs of the task: each of their keys once, in
order, with the newest version. -/
structure KeepsNewest (c : Compactor) (task : CompactionTask) (t : SSTable) : Prop where
  increasing : t.entries.Pairwise fun a b => a.1 < b.1
  keys : ∀ key, t.Has key ↔ ∃ input ∈ c.tables task.inputSsts, input.Has key
  newest : ∀ key, t.newest key = newestIn (c.tables (c.probeOrder task)) key

/-- For every key, the first input of the task that has the key says the same of it as the
first that a read comes to. -/
def AgreesWithReads (c : Compactor) (task : CompactionTask) : Prop :=
  ∀ key, newestIn (c.tables task.inputSsts) key = newestIn (c.tables (c.probeOrder task)) key

/-- The table that is written has the first version of each key in the order of the task. -/
theorem mergeTables_spec {ssts : List SSTable} (hsound : ∀ t ∈ ssts, t.Sound) (newSstId : ℕ) :
    ∃ sst, mergeTables newSstId ssts = .ok sst ∧
      (sst.entries.Pairwise fun a b => a.1 < b.1) ∧
      (∀ key, sst.Has key ↔ ∃ input ∈ ssts, input.Has key) ∧
      ∀ key, sst.newest key = newestIn ssts key := by
  obtain ⟨out, hmerged, hmerge⟩ := mergeTables_eq newSstId hsound
  refine ⟨_, hmerge, ?_⟩
  generalize hsst : SSTableBuilder.build newSstId (ssts.length * 1000)
    (out.map fun item => (item.1.data, item.2)) = sst
  have hentries : sst.entries = out.map fun item => (item.1.data, item.2) := by
    rw [← hsst]
    exact (SSTableBuilder.holds_build ..).flatten_blocks
  -- the builder takes the items over one for one
  have hhas : ∀ key, sst.Has key ↔ ∃ item ∈ out, item.1.data = key := by
    intro key
    unfold SSTable.Has
    rw [hentries]
    constructor
    · rintro ⟨e, he, rfl⟩
      obtain ⟨item, hitem, rfl⟩ := List.mem_map.mp he
      exact ⟨item, hitem, rfl⟩
    · rintro ⟨item, hitem, rfl⟩
      exact ⟨_, List.mem_map_of_mem hitem, rfl⟩
  -- nothing is dropped but older versions of a key that stays
  have hkeys : ∀ key, sst.Has key ↔ ∃ input ∈ ssts, input.Has key := by
    intro key
    rw [hhas]
    constructor
    · rintro ⟨item, hitem, rfl⟩
      obtain ⟨input, hinput, hnewest⟩ :=
        List.exists_of_findSome?_eq_some (hmerged.newestIn_eq hitem)
      exact ⟨input, hinput, SSTable.has_of_newest hnewest⟩
    · rintro ⟨input, hinput, e, he, rfl⟩
      obtain ⟨i, hi⟩ := exists_inputs_eq (List.mem_map_of_mem (f := SSTableIterator.items) hinput)
      have hitem : SSTableIterator.itemOf e ∈ inputs (ssts.map SSTableIterator.items) i := by
        rw [hi]
        exact List.mem_map_of_mem he
      exact hmerged.complete i _ hitem
  have hincreasing : sst.entries.Pairwise fun a b => a.1 < b.1 := by
    rw [hentries, List.pairwise_map]
    exact hmerged.sorted
  refine ⟨hincreasing, hkeys, ?_⟩
  · intro key
    -- the item of a key is that of the first input to have it
    by_cases hkey : sst.Has key
    · obtain ⟨item, hitem, rfl⟩ := (hhas key).mp hkey
      have he : (item.1.data, item.2) ∈ sst.entries := by
        rw [hentries]
        exact List.mem_map_of_mem hitem
      rw [hmerged.newestIn_eq hitem, SSTable.newest_of_mem hincreasing he]
    · rw [SSTable.newest_eq_none hkey, newestIn, eq_comm, List.findSome?_eq_none_iff]
      intro input hinput
      apply SSTable.newest_eq_none
      intro hhas'
      exact hkey ((hkeys key).mpr ⟨input, hinput, hhas'⟩)

/-- What a compaction writes: the inputs merged, the first input of the task first. -/
theorem compact_spec {lines : List ManifestLine} {dir : Dir}
    (hsound : ∀ id sst, dir.ssts id = some sst → sst.Sound) {task : CompactionTask}
    (hpick : pickCompaction ⟨dir, Manifest.load lines⟩ = some task) {newIds : List ℕ}
    (hok : (exec (compact noFaults task) ⟨dir, Manifest.load lines⟩).1 = .ok newIds) :
    ∃ newId sst, newIds = [newId] ∧
      (exec (compact noFaults task) ⟨dir, Manifest.load lines⟩).2.dir.ssts newId = some sst ∧
      (sst.entries.Pairwise fun a b => a.1 < b.1) ∧
      (∀ key, sst.Has key ↔
        ∃ input ∈ tables ⟨dir, Manifest.load lines⟩ task.inputSsts, input.Has key) ∧
      ∀ key, sst.newest key = newestIn (tables ⟨dir, Manifest.load lines⟩ task.inputSsts) key := by
  have hnumbered := Manifest.numbered_load lines
  generalize hc : (⟨dir, Manifest.load lines⟩ : Compactor) = c at hpick hok ⊢
  have hmanifest : c.manifest = Manifest.load lines := by rw [← hc]
  have hdir : c.dir = dir := by rw [← hc]
  rw [← hmanifest] at hnumbered
  obtain ⟨hne, hlevels⟩ := pickCompaction_spec hpick
  cases hopen : c.openAll task.inputSsts with
  | error e =>
      rw [exec_compact_of_error hne hopen] at hok
      contradiction
  | ok ssts =>
      have hssts : ssts = c.tables task.inputSsts := openAll_eq_ok hopen
      have hinputs : ∀ t ∈ ssts, t.Sound := by
        intro t ht
        rw [hssts] at ht
        obtain ⟨id, _, hid⟩ := List.mem_filterMap.mp ht
        rw [hdir] at hid
        exact hsound id t hid
      obtain ⟨sst, hmerge, hwritten⟩ := mergeTables_spec hinputs c.manifest.nextSstId
      -- the inputs are listed, and so have numbers below the next one
      have hfresh : c.manifest.nextSstId ∉ task.inputSsts := by
        intro hin
        rcases hlevels _ hin with hin | hin
        · exact lt_irrefl _ (hnumbered.sst _ _ hin)
        · exact lt_irrefl _ (hnumbered.sst _ _ hin)
      rw [hssts] at hwritten
      rw [exec_compact hne hopen hmerge] at hok ⊢
      refine ⟨c.manifest.nextSstId, sst, (Except.ok.inj hok).symm, ?_, hwritten⟩
      show (removed task task.inputSsts _).dir.ssts _ = _
      rw [ssts_removed task hfresh]
      exact Function.update_self ..

/-- For every task that is picked and whose inputs can be opened, the table that is written
keeps the newest versions if and only if the order of the inputs does not matter to a read. -/
theorem compact_keepsNewest_iff (lines : List ManifestLine) (dir : Dir)
    (hsound : ∀ id sst, dir.ssts id = some sst → sst.Sound) {task : CompactionTask}
    (hpick : pickCompaction ⟨dir, Manifest.load lines⟩ = some task) {newIds : List ℕ}
    (hok : (exec (compact noFaults task) ⟨dir, Manifest.load lines⟩).1 = .ok newIds) :
    ∃ newId sst, newIds = [newId] ∧
      (exec (compact noFaults task) ⟨dir, Manifest.load lines⟩).2.dir.ssts newId = some sst ∧
      (KeepsNewest ⟨dir, Manifest.load lines⟩ task sst ↔
        AgreesWithReads ⟨dir, Manifest.load lines⟩ task) := by
  obtain ⟨newId, sst, hids, hfile, hincreasing, hkeys, hnewest⟩ := compact_spec hsound hpick hok
  refine ⟨newId, sst, hids, hfile, ?_⟩
  constructor
  · intro hkeeps key
    calc newestIn (tables _ task.inputSsts) key
        = sst.newest key := (hnewest key).symm
      _ = newestIn (tables _ (probeOrder _ task)) key := hkeeps.newest key
  · intro hagree
    exact ⟨hincreasing, hkeys, fun key => (hnewest key).trans (hagree key)⟩

/-- A directory with the tables `1 .. 4`, of one entry each, in level 0. -/
def fourTables (entry : ℕ → Entry) : Dir where
  manifest := some [.sst 0 1, .sst 0 2, .sst 0 3, .sst 0 4]
  wals := fun _ => none
  ssts := fun id => if 1 ≤ id ∧ id ≤ 4 then some (SSTableBuilder.build id 1 [entry id]) else none

theorem sound_fourTables (entry : ℕ → Entry) (id : ℕ) (sst : SSTable)
    (hsst : (fourTables entry).ssts id = some sst) : sst.Sound := by
  have hfile : (if 1 ≤ id ∧ id ≤ 4 then some (SSTableBuilder.build id 1 [entry id]) else none) =
      some sst := hsst
  split at hfile
  · rw [← Option.some.inj hfile]
    exact (SSTableBuilder.holds_build ..).sound (List.pairwise_singleton ..)
  · contradiction

/-- The newest version of a key in a table of one entry. -/
theorem newest_build_singleton (id : ℕ) (e : Entry) (key : Bytes) :
    (SSTableBuilder.build id 1 [e]).newest key = if e.1 = key then some e.2 else none := by
  have hentries : (SSTableBuilder.build id 1 [e]).entries = [e] :=
    (SSTableBuilder.holds_build id 1 [e]).flatten_blocks
  rw [SSTable.newest, hentries, List.find?_singleton]
  by_cases he : e.1 = key <;> simp [he]

/-- The entries of the tables `1 .. 4`: the last one has that of the first once more. -/
def repeatedEntry (id : ℕ) : Entry := ([UInt8.ofNat (id % 3)], some [UInt8.ofNat (id % 3)])

/-- A key that two inputs have with one value is kept with it. -/
theorem compact_keepsNewest_repeatedEntry : ∃ sst,
    (exec (compact noFaults ⟨0, [1, 2, 3, 4], 1⟩)
      ⟨fourTables repeatedEntry,
        Manifest.load [.sst 0 1, .sst 0 2, .sst 0 3, .sst 0 4]⟩).2.dir.ssts 5 = some sst ∧
    KeepsNewest ⟨fourTables repeatedEntry,
      Manifest.load [.sst 0 1, .sst 0 2, .sst 0 3, .sst 0 4]⟩ ⟨0, [1, 2, 3, 4], 1⟩ sst := by
  have hpick : pickCompaction ⟨fourTables repeatedEntry,
      Manifest.load [.sst 0 1, .sst 0 2, .sst 0 3, .sst 0 4]⟩ = some ⟨0, [1, 2, 3, 4], 1⟩ := by
    decide
  obtain ⟨newId, sst, hids, hfile, hkeeps⟩ := compact_keepsNewest_iff
    [.sst 0 1, .sst 0 2, .sst 0 3, .sst 0 4] _ (sound_fourTables repeatedEntry) hpick
    (show _ = Except.ok [5] by decide +kernel)
  obtain rfl : 5 = newId := (List.cons.inj hids).1
  refine ⟨sst, hfile, hkeeps.mpr fun key => ?_⟩
  let table (id : ℕ) : SSTable := SSTableBuilder.build id 1 [repeatedEntry id]
  show newestIn [table 1, table 2, table 3, table 4] key =
    newestIn [table 4, table 3, table 2, table 1] key
  simp only [table, newestIn, List.findSome?_cons, newest_build_singleton]
  by_cases hfirst : (repeatedEntry 1).1 = key
  · subst hfirst
    decide
  · by_cases hsecond : (repeatedEntry 2).1 = key
    · subst hsecond
      decide
    · -- neither of them has the key, and in both orders the third one decides
      have hfourth : (repeatedEntry 4).1 ≠ key := hfirst
      simp only [hfirst, hsecond, hfourth, if_false]

/-- Of four versions of one key, the oldest is kept. -/
theorem not_keepsNewest_compact : ∃ sst,
    pickCompaction ⟨fourTables fun id => ([7], some [UInt8.ofNat id]),
      Manifest.load [.sst 0 1, .sst 0 2, .sst 0 3, .sst 0 4]⟩ = some ⟨0, [1, 2, 3, 4], 1⟩ ∧
    (exec (compact noFaults ⟨0, [1, 2, 3, 4], 1⟩)
      ⟨fourTables fun id => ([7], some [UInt8.ofNat id]),
        Manifest.load [.sst 0 1, .sst 0 2, .sst 0 3, .sst 0 4]⟩).2.dir.ssts 5 = some sst ∧
    ¬ KeepsNewest ⟨fourTables fun id => ([7], some [UInt8.ofNat id]),
      Manifest.load [.sst 0 1, .sst 0 2, .sst 0 3, .sst 0 4]⟩ ⟨0, [1, 2, 3, 4], 1⟩ sst := by
  have hpick : pickCompaction ⟨fourTables fun id => ([7], some [UInt8.ofNat id]),
      Manifest.load [.sst 0 1, .sst 0 2, .sst 0 3, .sst 0 4]⟩ = some ⟨0, [1, 2, 3, 4], 1⟩ := by
    decide
  obtain ⟨newId, sst, hids, hfile, _, _, hnewest⟩ :=
    compact_spec (sound_fourTables _) hpick (show _ = Except.ok [5] by decide +kernel)
  obtain rfl : 5 = newId := (List.cons.inj hids).1
  refine ⟨sst, hpick, hfile, ?_⟩
  intro hkeeps
  have hagree := (hnewest [7]).symm.trans (hkeeps.newest [7])
  exact absurd hagree (by decide)

end Compactor
end Crabstash

import Crabstash.Storage.CompactionCrash
import Crabstash.Storage.Readers
import Crabstash.Storage.Recency

/-!
# A running database and its compactions

The compaction thread works on the files of the directory and tells the Lsm nothing: the
levels that reads go through are those of the foreground, and they still have the tables
whose files a compaction has removed.  Point reads do not notice, since they go through
open handles; a scan opens every table by its name and fails.  And a compaction may write
its table under a number that the Lsm has given out too, which truncates a file that is
open.

`Live` is the Lsm with its files, its readers under way and a compaction thread that may
write and remove any table files at any time; which ones it chooses is left open.  `Plain`
is the Lsm with the tables themselves at hand.  As long as every file a step goes to is
the one that was written for the table (`ReadyStep`), the first does what the second does
(`Mirrors.step`); and without compactions every file always is (`Alone`).
-/

namespace Crabstash

open Crabstash.Action Run

/-- The steps of writers, flushes, readers and compactions. -/
inductive LiveStep where
  | draw (op : Op)
  /-- The part of a flush that writes the file; the write lock is held from here. -/
  | build (call : ℕ)
  | finish (call : ℕ)
  | sync
  | get (key : Bytes) (ts : ℕ)
  | scan (start last : Bound)
  | proceed (reader : ℕ)
  | compaction (action : Compactor.InstallStep)

namespace LsmThreads

/-- The table that finishing a call flushes, if it does. -/
def built (t : LsmThreads) (call : ℕ) : Option SSTable :=
  (t.drawn call).bind fun c =>
    if t.Flushes c.1 c.2 noFaults then some (t.written c.1 c.2 noFaults).nextTable else none

end LsmThreads

namespace LsmThreads

theorem manifest_written (t : LsmThreads) (ts : ℕ) (op : Op) (faults : Faults IoCall) :
    (t.written ts op faults).manifest = t.lsm.manifest := by
  unfold written
  split
  · rfl
  · rw [Lsm.writes_eq]

/-- Finishing a call when nothing fails. -/
theorem lsm_finish_noFaults (t : LsmThreads) (ts : ℕ) (op : Op) :
    (exec (op.finish noFaults ts) t.lsm).2 =
      if t.Flushes ts op noFaults then (t.written ts op noFaults).rotate
      else t.written ts op noFaults := by
  have hnone : ∀ call ∈ Lsm.rotationCalls, noFaults call = false := fun _ _ => rfl
  rw [lsm_finish]
  by_cases hrotates : t.Rotates ts op noFaults
  · rw [if_pos hrotates, if_pos ⟨hrotates, hnone⟩, Lsm.rotateMemtable_succeeds _ hnone]
  · rw [if_neg hrotates, if_neg fun h => hrotates h.1]

/-- Finishing a call that flushes nothing. -/
theorem finish_of_none {t : LsmThreads} {call : ℕ} (hbuilt : t.built call = none) :
    (t.step (.finish call noFaults)).lsm.levels = t.lsm.levels ∧
    (t.step (.finish call noFaults)).lsm.manifest = t.lsm.manifest := by
  rw [step]
  unfold built at hbuilt
  cases hdrawn : t.drawn call with
  | none => exact ⟨rfl, rfl⟩
  | some c =>
      obtain ⟨ts, op⟩ := c
      rw [hdrawn, Option.bind_some] at hbuilt
      have hnot : ¬ t.Flushes ts op noFaults := by
        intro hflushes
        rw [if_pos hflushes] at hbuilt
        contradiction
      show (exec (op.finish noFaults ts) t.lsm).2.levels = _ ∧
        (exec (op.finish noFaults ts) t.lsm).2.manifest = _
      rw [lsm_finish_noFaults, if_neg hnot]
      exact ⟨levels_written t ts op noFaults, manifest_written t ts op noFaults⟩

/-- Finishing a call that flushes a table. -/
theorem finish_of_built {t : LsmThreads} {call : ℕ} {table : SSTable}
    (hbuilt : t.built call = some table) :
    (t.step (.finish call noFaults)).lsm.levels =
      Function.update t.lsm.levels 0 (t.lsm.levels 0 ++ [table]) ∧
    table.id = t.lsm.manifest.nextSstId ∧
    table.id < (t.step (.finish call noFaults)).lsm.manifest.nextSstId := by
  rw [step]
  unfold built at hbuilt
  cases hdrawn : t.drawn call with
  | none =>
      rw [hdrawn] at hbuilt
      contradiction
  | some c =>
      obtain ⟨ts, op⟩ := c
      rw [hdrawn, Option.bind_some] at hbuilt
      have hflushes : t.Flushes ts op noFaults := by
        by_contra hnot
        rw [if_neg hnot] at hbuilt
        contradiction
      rw [if_pos hflushes] at hbuilt
      obtain rfl := Option.some.inj hbuilt
      have hid : (t.written ts op noFaults).nextTable.id = t.lsm.manifest.nextSstId := by
        rw [← manifest_written t ts op noFaults]
        exact SSTableBuilder.id_build _ _ _
      show (exec (op.finish noFaults ts) t.lsm).2.levels = _ ∧ _ ∧
        _ < (exec (op.finish noFaults ts) t.lsm).2.manifest.nextSstId
      rw [lsm_finish_noFaults, if_pos hflushes]
      refine ⟨?_, hid, ?_⟩
      · rw [Lsm.levels_rotate, levels_written]
      · rw [hid, ← manifest_written t ts op noFaults]
        exact lt_of_lt_of_le (Nat.lt_succ_self _) (le_max_left _ _)

theorem levels_draw (t : LsmThreads) (op : Op) :
    (t.step (.draw op)).lsm.levels = t.lsm.levels := by
  rw [step]
  split <;> rfl

end LsmThreads

namespace Lsm

/-- The table opened last, as it was found. -/
def withLast (s : Lsm) (sst : SSTable) : Lsm :=
  { s with levels := Function.update s.levels 0 ((s.levels 0).dropLast ++ [sst]) }

/-- Nothing changes if it is found as it was built. -/
theorem withLast_eq_self {s : Lsm} {levels : ℕ → List SSTable} {sst : SSTable}
    (hlevels : s.levels = Function.update levels 0 (levels 0 ++ [sst])) : s.withLast sst = s := by
  have hlast : (s.levels 0).dropLast ++ [sst] = s.levels 0 := by
    rw [hlevels, Function.update_self, List.dropLast_concat]
  unfold withLast
  rw [hlast, Function.update_eq_self]

end Lsm

/-- What a read returned, added to what has been observed. -/
def observe (observed : List (ℕ × Except Error Observation)) (reader : ℕ)
    (result : Option (Except Error Observation)) : List (ℕ × Except Error Observation) :=
  observed ++ (result.map fun r => (reader, r)).toList

/-! ## The Lsm with the tables at hand -/

/-- The same threads in a database that has no files and no compactions. -/
structure Plain where
  threads : LsmThreads
  building : Option ℕ
  readers : List (Reader SSTableIterator)
  observed : List (ℕ × Except Error Observation)

namespace Plain

/-- The directory has just been opened. -/
def start (memtableSize : ℕ) (dir : Dir) : Plain :=
  { threads := LsmThreads.start memtableSize dir [], building := none, readers := [], observed := [] }

/-- The step without its files; a compaction step does nothing. -/
def step (p : Plain) : LiveStep → Plain
  | .draw op => { p with threads := p.threads.step (.draw op) }
  | .build call =>
      match p.building, p.threads.built call with
      | none, some _ => { p with building := some call }
      | _, _ => p
  | .finish call =>
      match p.threads.built call with
      | none =>
          if p.building = none then { p with threads := p.threads.step (.finish call noFaults) }
          else p
      | some _ =>
          if p.building = some call then
            { p with threads := p.threads.step (.finish call noFaults), building := none }
          else p
  | .sync =>
      if p.building = none then { p with threads := p.threads.step (.sync noFaults) } else p
  | .get key ts =>
      if p.building = none then
        let (result, reader) := Reader.startGet p.threads.lsm key ts
        { p with
          readers := p.readers ++ [reader]
          observed := observe p.observed p.readers.length result }
      else p
  | .scan start last =>
      if p.building = none then
        { p with readers := p.readers ++ [Reader.startScan p.threads.lsm start last] }
      else p
  | .proceed reader =>
      match p.readers[reader]? with
      | none => p
      | some r =>
          let (result, r) := r.proceed .direct
          { p with
            readers := p.readers.set reader r
            observed := observe p.observed reader result }
  | .compaction _ => p

end Plain

/-! ## The Lsm with its files -/

/-- `handle` is the version that the open handle of a table is on; `compacted` counts the
tables that compactions have written. -/
structure Live where
  threads : LsmThreads
  files : Files
  handle : ℕ → FileVersion
  building : Option ℕ
  readers : List (Reader TableIterator)
  observed : List (ℕ × Except Error Observation)
  compacted : ℕ

/-- A directory in which every table has the number of its file, as `open` gives it. -/
def Dir.named (dir : Dir) : Dir :=
  { dir with ssts := fun id => (dir.ssts id).map fun sst => { sst with id } }

namespace Live

/-- `Lsm::open`. -/
def start (memtableSize : ℕ) (dir : Dir) : Live :=
  { threads := LsmThreads.start memtableSize dir.named []
    files :=
      { names := fun id => (dir.ssts id).map fun _ => .ofLsm id
        contents := fun version =>
          match version with
          | .ofLsm id => dir.named.ssts id
          | .ofCompaction _ => none }
    handle := .ofLsm
    building := none
    readers := []
    observed := []
    compacted := 0 }

/-- The end of a flush: the file is opened by its name. -/
def openBuilt (s : Live) (call : ℕ) (table : SSTable) : Live :=
  match s.files.openTable table.id with
  | .error _ =>
      { s with
        threads := s.threads.step (.finish call fun io => decide (io = .sstOpen))
        building := none }
  | .ok (version, sst) =>
      let threads := s.threads.step (.finish call noFaults)
      { s with
        threads := { threads with lsm := threads.lsm.withLast sst }
        handle := Function.update s.handle table.id version
        building := none }

/-- What a step of the compaction thread does to the table files. -/
def compact (s : Live) : Compactor.InstallStep → Live
  | .create id sst =>
      { s with
        files := s.files.write id (.ofCompaction s.compacted) sst
        compacted := s.compacted + 1 }
  | .del _ => s
  | .unlink id => { s with files := s.files.unlink id }
  | .add _ => s

section

variable (misread : SSTable → ℕ → Except Error (List Entry))

/-- A step of the database with its files. -/
def step (s : Live) : LiveStep → Live
  | .draw op => { s with threads := s.threads.step (.draw op) }
  | .build call =>
      match s.building, s.threads.built call with
      | none, some table =>
          { s with
            files := s.files.write table.id (.ofLsm table.id) table
            building := some call }
      | _, _ => s
  | .finish call =>
      match s.threads.built call with
      | none =>
          if s.building = none then { s with threads := s.threads.step (.finish call noFaults) }
          else s
      | some table => if s.building = some call then s.openBuilt call table else s
  | .sync =>
      if s.building = none then { s with threads := s.threads.step (.sync noFaults) } else s
  | .get key ts =>
      if s.building = none then
        let (result, reader) := Reader.startGet s.threads.lsm key ts
        { s with
          readers := s.readers ++ [reader]
          observed := observe s.observed s.readers.length result }
      else s
  | .scan start last =>
      if s.building = none then
        { s with readers := s.readers ++ [Reader.startScan s.threads.lsm start last] }
      else s
  | .proceed reader =>
      match s.readers[reader]? with
      | none => s
      | some r =>
          let (result, r) := r.proceed (TableAccess.ofFiles s.files s.handle misread)
          { s with
            readers := s.readers.set reader r
            observed := observe s.observed reader result }
  | .compaction action => s.compact action

end

/-- Every file that the step goes to is the one that was written for the table. -/
def ReadyStep (s : Live) : LiveStep → Prop
  | .finish call => s.building = some call → ∀ table ∈ s.threads.built call,
      s.files.HasFile (.ofLsm table.id) table
  | .proceed reader => ∀ r ∈ s.readers[reader]?, r.Ready s.files
  | _ => True

instance (s : Live) : ∀ action, Decidable (s.ReadyStep action)
  | .draw _ => inferInstanceAs (Decidable True)
  | .build _ => inferInstanceAs (Decidable True)
  | .finish _ => inferInstanceAs (Decidable (_ → ∀ table ∈ _, _))
  | .sync => inferInstanceAs (Decidable True)
  | .get _ _ => inferInstanceAs (Decidable True)
  | .scan _ _ => inferInstanceAs (Decidable True)
  | .proceed _ => inferInstanceAs (Decidable (∀ r ∈ _, _))
  | .compaction _ => inferInstanceAs (Decidable True)

/-! ## Both do the same -/

/-- The two are in the same state, and of the tables in the levels and of those that reads
have opened or are going to, `K` holds. -/
structure Mirrors (K : FileVersion → SSTable → Prop) (s : Live) (p : Plain) : Prop where
  threads : s.threads = p.threads
  handle : s.handle = .ofLsm
  building : s.building = p.building
  observed : s.observed = p.observed
  levels : ∀ level, ∀ sst ∈ p.threads.lsm.levels level, K (.ofLsm sst.id) sst
  readers : List.Forall₂
    (Reader.Mirrors (TableIterator.Follows K) fun sst => K (.ofLsm sst.id) sst)
    s.readers p.readers
  ok : ∀ o ∈ p.observed, ∃ observation, o.2 = .ok observation

theorem forall₂_set {α β : Type} {R : α → β → Prop} {l : List α} {l' : List β}
    (h : List.Forall₂ R l l') {a : α} {b : β} (hab : R a b) (i : ℕ) :
    List.Forall₂ R (l.set i a) (l'.set i b) := by
  induction h generalizing i with
  | nil => exact List.Forall₂.nil
  | cons hhead htail ih =>
      cases i with
      | zero => exact List.Forall₂.cons hab htail
      | succ i => exact List.Forall₂.cons hhead (ih i)

theorem rel_getElem? {α β : Type} {R : α → β → Prop} {l : List α} {l' : List β}
    (h : List.Forall₂ R l l') (i : ℕ) : Option.Rel R l[i]? l'[i]? := by
  induction h generalizing i with
  | nil => exact Option.Rel.none
  | cons hhead _ ih =>
      cases i with
      | zero => exact Option.Rel.some hhead
      | succ i => exact ih i

/-- A point read starts the same way, and so far nothing can fail. -/
theorem mirrors_startGet (R : TableIterator → SSTableIterator → Prop) {K : SSTable → Prop}
    {lsm : Lsm} (hlevels : ∀ level, ∀ sst ∈ lsm.levels level, K sst) (key : Bytes) (ts : ℕ) :
    (Reader.startGet lsm key ts : _ × Reader TableIterator).1 =
      (Reader.startGet lsm key ts : _ × Reader SSTableIterator).1 ∧
    (∀ o ∈ (Reader.startGet lsm key ts : _ × Reader SSTableIterator).1,
      ∃ observation, o = .ok observation) ∧
    Reader.Mirrors R K (Reader.startGet lsm key ts).2 (Reader.startGet lsm key ts).2 := by
  unfold Reader.startGet
  cases lsm.memtable.getAtTs key ts with
  | some value => exact ⟨rfl, fun o ho => ⟨_, (Option.mem_some.mp ho).symm⟩, Reader.Mirrors.finished⟩
  | none =>
      cases lsm.immutableMemtables.reverse.findSome? fun imm => imm.getAtTs key ts with
      | some value =>
          exact ⟨rfl, fun o ho => ⟨_, (Option.mem_some.mp ho).symm⟩, Reader.Mirrors.finished⟩
      | none =>
          refine ⟨rfl, fun o ho => absurd ho (Option.not_mem_none o), ?_⟩
          apply Reader.Mirrors.get
          intro sst hsst
          obtain ⟨level, _, hmem⟩ := List.mem_flatMap.mp hsst
          exact hlevels level sst (List.mem_reverse.mp hmem)

theorem mirrors_startScan (R : TableIterator → SSTableIterator → Prop) {K : SSTable → Prop}
    {lsm : Lsm} (hlevels : ∀ level, ∀ sst ∈ lsm.levels level, K sst) (start last : Bound) :
    Reader.Mirrors R K (Reader.startScan lsm start last) (Reader.startScan lsm start last) := by
  refine Reader.Mirrors.opening start last _ _ _ List.Forall₂.nil List.Forall₂.nil ?_
  intro sst hsst
  rcases List.mem_append.mp hsst with hsst | hsst
  · exact hlevels 0 sst (List.mem_reverse.mp hsst)
  · obtain ⟨level, _, hmem⟩ := List.mem_flatMap.mp hsst
    exact hlevels level sst hmem

theorem ok_observe {observed : List (ℕ × Except Error Observation)} {reader : ℕ}
    {result : Option (Except Error Observation)}
    (hobserved : ∀ o ∈ observed, ∃ observation, o.2 = .ok observation)
    (hresult : ∀ o ∈ result, ∃ observation, o = .ok observation) :
    ∀ o ∈ observe observed reader result, ∃ observation, o.2 = .ok observation := by
  intro o ho
  rcases List.mem_append.mp ho with ho | ho
  · exact hobserved o ho
  · obtain ⟨r, hr, rfl⟩ := Option.map_eq_some_iff.mp (Option.mem_toList.mp ho)
    exact hresult r hr

section

variable {misread : SSTable → ℕ → Except Error (List Entry)}
  {K K' : FileVersion → SSTable → Prop} {s : Live} {p : Plain}

theorem Mirrors.mono (h : Mirrors K s p) (hK : ∀ version sst, K version sst → K' version sst) :
    Mirrors K' s p where
  threads := h.threads
  handle := h.handle
  building := h.building
  observed := h.observed
  levels := fun level sst hsst => hK _ _ (h.levels level sst hsst)
  readers := h.readers.imp fun _ _ hr =>
    hr.imp (fun _ _ ht => ⟨ht.it_eq, hK _ _ ht.keeps⟩) fun sst => hK _ sst
  ok := h.ok

/-- A step of the threads that adds to the levels no table without `K`. -/
theorem Mirrors.threads_step (h : Mirrors K s p) (action : ThreadStep)
    (hlevels : ∀ level, ∀ sst ∈ (p.threads.step action).lsm.levels level,
      K (.ofLsm sst.id) sst) :
    Mirrors K { s with threads := s.threads.step action }
      { p with threads := p.threads.step action } :=
  { h with
    threads := by rw [h.threads]
    levels := hlevels }

theorem Mirrors.openBuilt (h : Mirrors K s p) {call : ℕ} {table : SSTable}
    (hbuilt : p.threads.built call = some table)
    (hfile : s.files.HasFile (.ofLsm table.id) table) (hK : K (.ofLsm table.id) table) :
    Mirrors K (s.openBuilt call table)
      { p with threads := p.threads.step (.finish call noFaults), building := none } := by
  have hlevels := (LsmThreads.finish_of_built hbuilt).1
  unfold Live.openBuilt
  rw [Files.openTable_eq hfile]
  refine ⟨?_, ?_, rfl, h.observed, ?_, h.readers, h.ok⟩
  · simp only [h.threads, Lsm.withLast_eq_self hlevels]
  · show Function.update s.handle table.id _ = _
    rw [h.handle, Function.update_eq_self]
  · intro level sst hsst
    have hsst : sst ∈ Function.update p.threads.lsm.levels 0 (p.threads.lsm.levels 0 ++ [table])
        level := hlevels ▸ hsst
    rw [Function.update_apply] at hsst
    split at hsst
    · rcases List.mem_append.mp hsst with hsst | hsst
      · exact h.levels 0 sst hsst
      · rw [List.mem_singleton.mp hsst]
        exact hK
    · exact h.levels level sst hsst

theorem Mirrors.proceed (h : Mirrors K s p) {reader : ℕ}
    (hready : s.ReadyStep (.proceed reader)) :
    Mirrors K (s.step misread (.proceed reader)) (p.step (.proceed reader)) := by
  have hreader := rel_getElem? h.readers reader
  rw [step, Plain.step]
  cases hr : s.readers[reader]? with
  | none =>
      rw [hr] at hreader
      cases hr' : p.readers[reader]? with
      | none => exact h
      | some r' =>
          rw [hr'] at hreader
          cases hreader
  | some r =>
      rw [hr] at hreader
      cases hr' : p.readers[reader]? with
      | none =>
          rw [hr'] at hreader
          cases hreader
      | some r' =>
          rw [hr'] at hreader
          have hmirrors : Reader.Mirrors (TableIterator.Follows K)
              (fun sst => K (.ofLsm sst.id) sst) r r' := by
            cases hreader with
            | some hmirrors => exact hmirrors
          obtain ⟨hresult, hok, hnext⟩ := hmirrors.proceed_files misread (hready r hr)
          refine ⟨h.threads, h.handle, h.building, ?_, h.levels, ?_, ?_⟩
          · simp only [h.handle, hresult, h.observed]
          · simp only [h.handle]
            exact forall₂_set h.readers hnext reader
          · exact ok_observe h.ok hok

/-- A step whose files are there does what it does on the tables. -/
theorem Mirrors.step (h : Mirrors K s p) {action : LiveStep} (hready : s.ReadyStep action)
    (hK : ∀ version sst, K version sst → K' version sst)
    (hbuilt : ∀ call, action = .finish call → s.building = some call →
      ∀ table ∈ s.threads.built call, K' (.ofLsm table.id) table) :
    Mirrors K' (s.step misread action) (p.step action) := by
  have h' := h.mono hK
  obtain ⟨threads, files, handle, building, readers, observed, compacted⟩ := s
  obtain ⟨threads', building', readers', observed'⟩ := p
  obtain rfl : threads = threads' := h.threads
  obtain rfl : building = building' := h.building
  obtain rfl : observed = observed' := h.observed
  cases action with
  | draw op =>
      apply h'.threads_step
      rw [LsmThreads.levels_draw]
      exact h'.levels
  | build call =>
      simp only [Live.step, Plain.step]
      cases building with
      | some _ => exact h'
      | none =>
          cases threads.built call with
          | none => exact h'
          | some table => exact { h' with building := rfl }
  | finish call =>
      simp only [Live.step, Plain.step]
      cases htable : threads.built call with
      | none =>
          simp only
          split
          · apply h'.threads_step
            rw [(LsmThreads.finish_of_none htable).1]
            exact h'.levels
          · exact h'
      | some table =>
          simp only
          split
          · next hcall =>
              -- the new file is opened, and must have what was built
              exact h'.openBuilt htable (hready hcall table htable)
                (hbuilt call rfl hcall table htable)
          · exact h'
  | sync =>
      simp only [Live.step, Plain.step]
      split
      · exact h'.threads_step (.sync noFaults) h'.levels
      · exact h'
  | get key ts =>
      simp only [Live.step, Plain.step]
      split
      · obtain ⟨hresult, hok, hreader⟩ :=
          mirrors_startGet (TableIterator.Follows K') h'.levels key ts
        refine ⟨rfl, h.handle, rfl, ?_, h'.levels, ?_, ?_⟩
        · simp only [hresult, h.readers.length_eq]
        · exact List.rel_append h'.readers (List.Forall₂.cons hreader List.Forall₂.nil)
        · exact ok_observe h.ok hok
      · exact h'
  | scan start last =>
      simp only [Live.step, Plain.step]
      split
      · have hreader := mirrors_startScan (TableIterator.Follows K') h'.levels start last
        exact { h' with
          readers := List.rel_append h'.readers (List.Forall₂.cons hreader List.Forall₂.nil) }
      · exact h'
  | proceed reader => exact h'.proceed hready
  | compaction action =>
      cases action with
      | create id sst => exact { h' with }
      | del id => exact h'
      | unlink id => exact { h' with }
      | add id => exact h'

end

/-! ## Without compactions -/

/-- The table is in the file that was written for it, under a number that has been given
out. -/
structure Kept (s : Live) (version : FileVersion) (sst : SSTable) : Prop where
  own : version = .ofLsm sst.id
  hasFile : s.files.HasFile version sst
  passed : sst.id < s.threads.lsm.manifest.nextSstId

/-- What holds of the files while no compaction runs. -/
structure Alone (s : Live) : Prop where
  named : ∀ id version, s.files.names id = some version → version = .ofLsm id
  drawn : ∀ call, s.threads.nextCall ≤ call → s.threads.drawn call = none
  building : ∀ call, s.building = some call → ∃ table, s.threads.built call = some table ∧
    s.files.HasFile (.ofLsm table.id) table

end Live

namespace LsmThreads

/-- Drawing a timestamp leaves what another call is going to flush. -/
theorem built_draw (t : LsmThreads) (op : Op) {call : ℕ} (hcall : call ≠ t.nextCall) :
    (t.step (.draw op)).built call = t.built call := by
  rw [step]
  split
  · rfl
  · unfold built
    simp only [Function.update_of_ne hcall]
    congr 1
    funext c
    have hmemtable : ∀ s : Lsm, (s.writes c.1 c.2.operations).memtable =
        Lsm.insertBatch c.1 c.2.operations s.memtable := fun s => by rw [Lsm.writes_eq]
    have hsize : ∀ s : Lsm, (s.writes c.1 c.2.operations).memtableSize = s.memtableSize :=
      fun s => by rw [Lsm.writes_eq]
    have hmanifest : ∀ s : Lsm, (s.writes c.1 c.2.operations).manifest = s.manifest :=
      fun s => by rw [Lsm.writes_eq]
    simp only [Flushes, Rotates, written, noFaults, Lsm.full, Lsm.nextTable, Bool.false_eq_true,
      if_false, hmemtable, hsize, hmanifest]
    rfl

theorem built_eq_none {t : LsmThreads} {call : ℕ} (hdrawn : t.drawn call = none) :
    t.built call = none := by
  unfold built
  rw [hdrawn]
  rfl

theorem drawn_step {t : LsmThreads} (hdrawn : ∀ call, t.nextCall ≤ call → t.drawn call = none)
    (action : ThreadStep) (call : ℕ) (hcall : (t.step action).nextCall ≤ call) :
    (t.step action).drawn call = none := by
  cases action with
  | draw op =>
      rw [step] at hcall ⊢
      split at hcall
      · next hempty =>
          rw [if_pos hempty]
          exact hdrawn call hcall
      · next hne =>
          rw [if_neg hne]
          have hlt : t.nextCall < call := hcall
          show Function.update t.drawn t.nextCall _ call = none
          rw [Function.update_of_ne hlt.ne']
          exact hdrawn call hlt.le
  | finish finished faults =>
      rw [step] at hcall ⊢
      cases hfinished : t.drawn finished with
      | none =>
          rw [hfinished] at hcall
          exact hdrawn call hcall
      | some c =>
          rw [hfinished] at hcall
          show Function.update t.drawn finished none call = none
          rw [Function.update_apply]
          split
          · rfl
          · exact hdrawn call hcall
  | sync faults => exact hdrawn call hcall

end LsmThreads

/-- Every step but those of a compaction. -/
def LiveStep.foreground : LiveStep → Bool
  | .compaction _ => false
  | _ => true

namespace Live

section

variable {misread : SSTable → ℕ → Except Error (List Entry)} {s : Live} {p : Plain}

theorem Kept.mono {s' : Live} {version : FileVersion} {sst : SSTable} (h : Kept s version sst)
    (hfiles : s'.files = s.files)
    (hnext : s.threads.lsm.manifest.nextSstId ≤ s'.threads.lsm.manifest.nextSstId) :
    Kept s' version sst where
  own := h.own
  hasFile := hfiles ▸ h.hasFile
  passed := h.passed.trans_le hnext

/-- Without compactions every file is there when it is needed. -/
theorem Mirrors.ready (h : Mirrors (Kept s) s p) (halone : Alone s) {action : LiveStep} :
    s.ReadyStep action := by
  cases action with
  | finish call =>
      intro hcall table htable
      obtain ⟨table', htable', hfile⟩ := halone.building call hcall
      obtain rfl := Option.some.inj (htable'.symm.trans htable)
      exact hfile
  | proceed reader =>
      intro r hr
      have hreader := rel_getElem? h.readers reader
      rw [Option.mem_def.mp hr] at hreader
      cases hr' : p.readers[reader]? with
      | none =>
          rw [hr'] at hreader
          cases hreader
      | some r' =>
          rw [hr'] at hreader
          have hmirrors : Reader.Mirrors (TableIterator.Follows (Kept s))
              (fun sst => Kept s (.ofLsm sst.id) sst) r r' := by
            cases hreader with
            | some hmirrors => exact hmirrors
          refine ⟨?_, ?_, ?_⟩
          · intro sst hsst
            exact (hmirrors.asked hsst).hasFile.content
          · intro sst hsst
            exact (hmirrors.toOpen hsst).hasFile
          · intro t ht _
            obtain ⟨it, hfollows⟩ := hmirrors.moved ht
            exact hfollows.keeps.hasFile
  | _ => trivial

/-- A step of a reader. -/
theorem Alone.read (h : Alone s) (readers : List (Reader TableIterator))
    (observed : List (ℕ × Except Error Observation)) :
    Alone { s with readers, observed } ∧
      ∀ version sst, Kept s version sst → Kept { s with readers, observed } version sst :=
  ⟨⟨h.named, h.drawn, h.building⟩, fun _ _ hkept => ⟨hkept.own, hkept.hasFile, hkept.passed⟩⟩

/-- The file of a flush leaves those of the other tables. -/
theorem Alone.build (h : Alone s) {call : ℕ} {table : SSTable}
    (hbuilt : s.threads.built call = some table) :
    Alone { s with
      files := s.files.write table.id (.ofLsm table.id) table
      building := some call } ∧
    ∀ version sst, Kept s version sst → Kept { s with
      files := s.files.write table.id (.ofLsm table.id) table
      building := some call } version sst := by
  obtain ⟨_, hid, _⟩ := LsmThreads.finish_of_built hbuilt
  refine ⟨⟨?_, h.drawn, ?_⟩, ?_⟩
  · intro id version hname
    have hname : Function.update s.files.names table.id (some (.ofLsm table.id)) id =
        some version := hname
    rw [Function.update_apply] at hname
    split at hname
    · next heq =>
        rw [heq]
        exact (Option.some.inj hname).symm
    · exact h.named id version hname
  · intro call' hcall
    obtain rfl : call = call' := Option.some.inj hcall
    exact ⟨table, hbuilt, Files.hasFile_write _ _ _⟩
  · intro version sst hkept
    -- the number of the new table has not been given before
    have hne : sst.id ≠ table.id := by
      rw [hid]
      exact hkept.passed.ne
    have hversion : version ≠ .ofLsm table.id := by
      rw [hkept.own]
      intro heq
      exact hne (FileVersion.ofLsm.inj heq)
    refine ⟨hkept.own, hkept.hasFile.write hversion hne ?_ table, hkept.passed⟩
    intro hname
    exact hversion (h.named _ _ hname)

/-- Between the parts of a flush nothing is written; afterwards no file is. -/
theorem Alone.finish (h : Alone s) (call : ℕ) (hbuilding : s.building = none) :
    Alone { s with threads := s.threads.step (.finish call noFaults) } where
  named := h.named
  drawn := LsmThreads.drawn_step h.drawn (.finish call noFaults)
  building := by
    intro call' hcall
    rw [show s.building = some call' from hcall] at hbuilding
    contradiction

theorem Alone.openBuilt (h : Alone s) {call : ℕ} {table : SSTable}
    (hbuilt : s.threads.built call = some table)
    (hfile : s.files.HasFile (.ofLsm table.id) table) :
    Alone (s.openBuilt call table) ∧ (s.openBuilt call table).files = s.files ∧
      (s.openBuilt call table).threads = s.threads.step (.finish call noFaults) := by
  have hlevels := (LsmThreads.finish_of_built hbuilt).1
  have hopen : s.openBuilt call table =
      { s with
        threads := s.threads.step (.finish call noFaults)
        handle := Function.update s.handle table.id (.ofLsm table.id)
        building := none } := by
    unfold Live.openBuilt
    rw [Files.openTable_eq hfile]
    simp only [Lsm.withLast_eq_self hlevels]
  rw [hopen]
  refine ⟨⟨h.named, LsmThreads.drawn_step h.drawn (.finish call noFaults), ?_⟩, rfl, rfl⟩
  intro call' hcall
  contradiction

/-- Drawing a timestamp touches no file, and no flush that has begun. -/
theorem Alone.draw (h : Alone s) (op : Op) :
    Alone (s.step misread (.draw op)) ∧
      ∀ version sst, Kept s version sst → Kept (s.step misread (.draw op)) version sst := by
  have hmanifest : (s.threads.step (.draw op)).lsm.manifest = s.threads.lsm.manifest := by
    rw [LsmThreads.step]
    split <;> rfl
  refine ⟨⟨h.named, LsmThreads.drawn_step h.drawn (.draw op), ?_⟩, ?_⟩
  · intro call hcall
    obtain ⟨table, htable, hfile⟩ := h.building call hcall
    refine ⟨table, ?_, hfile⟩
    rw [← htable]
    apply LsmThreads.built_draw
    rintro rfl
    rw [LsmThreads.built_eq_none (h.drawn _ le_rfl)] at htable
    contradiction
  · intro version sst hkept
    exact hkept.mono rfl (congrArg Manifest.nextSstId hmanifest).ge

/-- The end of a flush brings its table in. -/
theorem Alone.step_finish (h : Alone s) (call : ℕ) (hready : s.ReadyStep (.finish call)) :
    Alone (s.step misread (.finish call)) ∧
      (∀ version sst, Kept s version sst →
        Kept (s.step misread (.finish call)) version sst) ∧
      (s.building = some call → ∀ table ∈ s.threads.built call,
        Kept (s.step misread (.finish call)) (.ofLsm table.id) table) := by
  simp only [Live.step]
  cases hbuilt : s.threads.built call with
  | none =>
      have hmanifest := (LsmThreads.finish_of_none hbuilt).2
      simp only
      split
      · next hnone =>
          refine ⟨h.finish call hnone, ?_, fun _ table htable => by contradiction⟩
          intro version sst hkept
          exact hkept.mono rfl (congrArg Manifest.nextSstId hmanifest).ge
      · exact ⟨h, fun _ _ hkept => hkept, fun _ table htable => by contradiction⟩
  | some table =>
      obtain ⟨_, hid, hpassed⟩ := LsmThreads.finish_of_built hbuilt
      simp only
      split
      · next hcall =>
          have hfile := hready hcall table hbuilt
          obtain ⟨halone, hfiles, hthreads⟩ := h.openBuilt hbuilt hfile
          refine ⟨halone, ?_, ?_⟩
          · intro version sst hkept
            apply hkept.mono hfiles
            rw [hthreads, ← hid]
            exact hpassed.le
          · intro _ table' htable'
            -- the table that was built becomes the newest of level 0
            obtain rfl := Option.some.inj htable'
            refine ⟨rfl, ?_, ?_⟩
            · rw [hfiles]
              exact hfile
            · rw [hthreads]
              exact hpassed
      · next hother => exact ⟨h, fun _ _ hkept => hkept, fun hcall => absurd hcall hother⟩

theorem Alone.step (h : Alone s) (hmirrors : Mirrors (Kept s) s p) {action : LiveStep}
    (hforeground : action.foreground = true) :
    Alone (s.step misread action) ∧
      (∀ version sst, Kept s version sst → Kept (s.step misread action) version sst) ∧
      ∀ call, action = .finish call → s.building = some call →
        ∀ table ∈ s.threads.built call, Kept (s.step misread action) (.ofLsm table.id) table := by
  cases action with
  | draw op =>
      obtain ⟨halone, hkeeps⟩ := h.draw op
      exact ⟨halone, hkeeps, fun _ hcall => by contradiction⟩
  | build call =>
      simp only [Live.step]
      cases hbuilding : s.building with
      | some _ => exact ⟨h, fun _ _ hkept => hkept, fun _ hcall => by contradiction⟩
      | none =>
          cases hbuilt : s.threads.built call with
          | none => exact ⟨h, fun _ _ hkept => hkept, fun _ hcall => by contradiction⟩
          | some table =>
              obtain ⟨halone, hkeeps⟩ := h.build hbuilt
              exact ⟨halone, hkeeps, fun _ hcall => by contradiction⟩
  | finish call =>
      obtain ⟨halone, hkeeps, hnew⟩ := h.step_finish call
        (hmirrors.ready h)
      refine ⟨halone, hkeeps, ?_⟩
      intro call' heq
      obtain rfl := LiveStep.finish.inj heq
      exact hnew
  | sync =>
      simp only [Live.step]
      -- no flush is under way then, so no file is waiting for its table
      split
      · next hnone =>
          refine ⟨⟨h.named, h.drawn, ?_⟩, fun _ _ hkept => hkept.mono rfl le_rfl,
            fun _ hcall => by contradiction⟩
          intro call hcall
          rw [show s.building = some call from hcall] at hnone
          contradiction
      · exact ⟨h, fun _ _ hkept => hkept, fun _ hcall => by contradiction⟩
  | get key ts =>
      simp only [Live.step]
      split
      · obtain ⟨halone, hkeeps⟩ := h.read _ _
        exact ⟨halone, hkeeps, fun _ hcall => by contradiction⟩
      · exact ⟨h, fun _ _ hkept => hkept, fun _ hcall => by contradiction⟩
  | scan start last =>
      simp only [Live.step]
      split
      · obtain ⟨halone, hkeeps⟩ := h.read _ _
        exact ⟨halone, hkeeps, fun _ hcall => by contradiction⟩
      · exact ⟨h, fun _ _ hkept => hkept, fun _ hcall => by contradiction⟩
  | proceed reader =>
      simp only [Live.step]
      cases s.readers[reader]? with
      | none => exact ⟨h, fun _ _ hkept => hkept, fun _ hcall => by contradiction⟩
      | some r =>
          obtain ⟨halone, hkeeps⟩ := h.read _ _
          exact ⟨halone, hkeeps, fun _ hcall => by contradiction⟩
  | compaction action => contradiction

end

/-! ## Runs -/

end Live
end Crabstash

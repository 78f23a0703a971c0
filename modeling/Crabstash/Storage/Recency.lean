import Crabstash.Foundations.Versions
import Crabstash.Storage.Session

/-!
# The order of the sources

A read asks the memtable, then the immutable memtables from the last to the first, then
the tables of level 0 from the last to the first.  This is right if no source has a
version of a key that is newer than one of that key in a source before it (`Recent`).
A table does not keep timestamps, so the memtables that the tables of level 0 were
written from are recorded beside the state.

Two things go against the order.  A thread draws its timestamp before it takes the
write lock, so by the time it writes, the memtable may have been rotated with a newer
version of its key in it.  And a rotation that fails leaves its memtable among the
immutable ones for good; the next rotation that succeeds puts a newer memtable into
level 0, behind it.  `OrderlyStep` excludes just these two, and `recent_run` is the
invariant for all runs of any number of threads.

Where the counter is behind all versions at the beginning it gives out no timestamp twice
(`Spaced`).  Then it is enough that no write has been passed by a later one of its key
(`recent_of_unpassed`).
-/

namespace Crabstash

open Crabstash.Action Run

namespace Lsm

/-- The calls of a rotation that can fail. -/
def rotationCalls : List IoCall :=
  [.walSync, .addWalWrite, .addWalSync, .walCreate, .sstBuild, .addSstWrite, .addSstSync, .sstOpen]

/-- What a rotation that fails at some call leaves: the memtable among the immutable ones, and
perhaps the file of its table. -/
structure Stranded (s s' : Lsm) : Prop where
  memtable : s'.memtable = MemTable.new
  immutableMemtables : s'.immutableMemtables = s.immutableMemtables ++ [s.memtable]
  levels : s'.levels = s.levels
  nextTs : s'.nextTs = s.nextTs
  memtableSize : s'.memtableSize = s.memtableSize
  ssts : s'.dir.ssts = s.dir.ssts ∨
    s'.dir.ssts = Function.update s.dir.ssts s.manifest.nextSstId (some s.nextTable)

theorem rotateMemtable_fails {faults : Faults IoCall} (s : Lsm)
    (hfault : ∃ call ∈ rotationCalls, faults call = true) :
    Stranded s (exec (rotateMemtable faults) s).2 := by
  unfold rotateMemtable sync addWal createWal flushImmutable addSst
  simp only [bind_assoc, exec_get_bind, exec_modify_bind, exec_attempt_bind_eq,
    exec_modifyGet_bind]
  -- one case for each call that may be the first to fail, and the one in which none does; the file
  -- is written after the fifth call
  split
  · exact ⟨rfl, rfl, rfl, rfl, rfl, Or.inl rfl⟩
  split
  · exact ⟨rfl, rfl, rfl, rfl, rfl, Or.inl rfl⟩
  split
  · exact ⟨rfl, rfl, rfl, rfl, rfl, Or.inl rfl⟩
  split
  · exact ⟨rfl, rfl, rfl, rfl, rfl, Or.inl rfl⟩
  split
  · exact ⟨rfl, rfl, rfl, rfl, rfl, Or.inl rfl⟩
  split
  · exact ⟨rfl, rfl, rfl, rfl, rfl, Or.inr rfl⟩
  split
  · exact ⟨rfl, rfl, rfl, rfl, rfl, Or.inr rfl⟩
  split
  · exact ⟨rfl, rfl, rfl, rfl, rfl, Or.inr rfl⟩
  obtain ⟨call, hcall, hfails⟩ := hfault
  simp only [rotationCalls, List.mem_cons, List.not_mem_nil, or_false] at hcall
  rcases hcall with rfl | rfl | rfl | rfl | rfl | rfl | rfl | rfl <;> contradiction

theorem rotateMemtable_succeeds {faults : Faults IoCall} (s : Lsm)
    (hnone : ∀ call ∈ rotationCalls, faults call = false) :
    exec (rotateMemtable faults) s = (.ok (), s.rotate) := by
  rw [← exec_rotateMemtable]
  unfold rotateMemtable sync addWal createWal flushImmutable addSst
  simp only [rotationCalls, List.forall_mem_cons] at hnone
  obtain ⟨hsync, hwrite, hwriteSync, hcreate, hbuild, hadd, haddSync, hopen, _⟩ := hnone
  simp only [bind_assoc, exec_get_bind, exec_modify_bind, exec_attempt_bind_eq,
    exec_modifyGet_bind, noFaults, hsync, hwrite, hwriteSync, hcreate, hbuild, hadd, haddSync,
    hopen, Bool.false_eq_true, if_false]

end Lsm

/-! ## Threads -/

namespace Op

/-- An operation from the write lock on. -/
def finish (op : Op) (faults : Faults IoCall) (ts : ℕ) : Action Lsm Unit :=
  match op with
  | put key value => Lsm.putAt faults ts key value
  | delete key => Lsm.deleteAt faults ts key
  | writeBatch operations => Lsm.writeBatchAt faults ts operations

/-- Whether `finish` looks at the size of the memtable. -/
def looksAtSize : Op → Bool
  | put _ _ => true
  | delete _ => false
  | writeBatch _ => true

theorem exec_finish (op : Op) (faults : Faults IoCall) (ts : ℕ) (s : Lsm) :
    exec (op.finish faults ts) s =
      if faults .walAppend then (.error .io, s)
      else if op.looksAtSize = true ∧ (s.writes ts op.operations).full then
        exec (Lsm.rotateMemtable faults) (s.writes ts op.operations)
      else (.ok (), s.writes ts op.operations) := by
  have hrotate : ∀ s' : Lsm, exec (Lsm.rotateIfFull faults) s' =
      if s'.full then exec (Lsm.rotateMemtable faults) s' else (.ok (), s') := by
    intro s'
    unfold Lsm.rotateIfFull
    rw [exec_get_bind]
    by_cases hfull : s'.memtableSize ≤ s'.memtable.size
    · rw [if_pos hfull, if_pos (show s'.full from hfull)]
    · rw [if_neg hfull, if_neg (show ¬ s'.full from hfull)]
      rfl
  cases op with
  | put key value =>
      unfold finish Lsm.putAt
      simp only [exec_attempt_bind_eq, exec_modify_bind, hrotate, looksAtSize, true_and]
      rfl
  | delete key =>
      unfold finish Lsm.deleteAt
      simp only [exec_attempt_bind_eq, exec_modify_bind, looksAtSize, Bool.false_eq_true,
        false_and, if_false]
      rfl
  | writeBatch operations =>
      unfold finish Lsm.writeBatchAt
      simp only [exec_attempt_bind_eq, exec_modify_bind, hrotate, looksAtSize, true_and,
        Lsm.writes_eq]
      rfl

end Op

/-- The tree, the operations whose timestamps have been drawn, and the memtables that the
tables of level 0 were written from. -/
structure LsmThreads where
  lsm : Lsm
  drawn : ℕ → Option (ℕ × Op)
  nextCall : ℕ
  flushed : List MemTable

/-- A timestamp is drawn, a write is put in under the lock, or the log is synced. -/
inductive ThreadStep where
  | draw (op : Op)
  | finish (call : ℕ) (faults : Faults IoCall)
  | sync (faults : Faults IoCall)

namespace LsmThreads

/-- A tree just opened, with the memtables that its tables were once written from. -/
def start (memtableSize : ℕ) (dir : Dir) (flushed : List MemTable) : LsmThreads :=
  { lsm := Lsm.openDir memtableSize dir, drawn := fun _ => none, nextCall := 0, flushed }

/-- The tree after a finishing operation has written, before it looks at the size. -/
def written (t : LsmThreads) (ts : ℕ) (op : Op) (faults : Faults IoCall) : Lsm :=
  if faults .walAppend then t.lsm else t.lsm.writes ts op.operations

/-- The finishing operation rotates the memtable. -/
def Rotates (t : LsmThreads) (ts : ℕ) (op : Op) (faults : Faults IoCall) : Prop :=
  faults .walAppend = false ∧ op.looksAtSize = true ∧ (t.written ts op faults).full

instance (t : LsmThreads) (ts : ℕ) (op : Op) (faults : Faults IoCall) :
    Decidable (t.Rotates ts op faults) :=
  inferInstanceAs (Decidable (_ ∧ _))

/-- The finishing operation rotates the memtable and no call of the rotation fails. -/
def Flushes (t : LsmThreads) (ts : ℕ) (op : Op) (faults : Faults IoCall) : Prop :=
  t.Rotates ts op faults ∧ ∀ call ∈ Lsm.rotationCalls, faults call = false

instance (t : LsmThreads) (ts : ℕ) (op : Op) (faults : Faults IoCall) :
    Decidable (t.Flushes ts op faults) :=
  inferInstanceAs (Decidable (_ ∧ _))

/-- One step of one thread; a call that has drawn no timestamp does nothing. -/
def step (t : LsmThreads) : ThreadStep → LsmThreads
  | .draw op =>
      if op.operations.isEmpty then t
      else
        { t with
          lsm := (exec (Lsm.fetchAddTs op.operations.length) t.lsm).2
          drawn := Function.update t.drawn t.nextCall (some (t.lsm.nextTs, op))
          nextCall := t.nextCall + 1 }
  | .finish call faults =>
      match t.drawn call with
      | none => t
      | some (ts, op) =>
          { t with
            lsm := (exec (op.finish faults ts) t.lsm).2
            drawn := Function.update t.drawn call none
            flushed :=
              if t.Flushes ts op faults then t.flushed ++ [(t.written ts op faults).memtable]
              else t.flushed }
  | .sync faults => { t with lsm := (exec (Lsm.sync faults) t.lsm).2 }

/-- The sources in the order in which a read asks them. -/
def sources (t : LsmThreads) : List MemTable :=
  t.lsm.memtable :: (t.lsm.immutableMemtables.reverse ++ t.flushed.reverse)

end LsmThreads

namespace MemTable

/-- The versions in a memtable. -/
def versions (m : MemTable) : Set (Bytes × ℕ) :=
  {v | ∃ e ∈ m.iter, e.1.data = v.1 ∧ e.1.timestamp = v.2}

theorem mem_versions {m : MemTable} {key : Bytes} {ts : ℕ} :
    (key, ts) ∈ m.versions ↔ ∃ e ∈ m.iter, e.1.data = key ∧ e.1.timestamp = ts := Iff.rfl

@[simp] theorem versions_new : new.versions = ∅ := by
  ext v
  simp [versions]

theorem versions_record (m : MemTable) (key : Bytes) (ts : ℕ) (value : Option Bytes) :
    (m.record ⟨key, ts⟩ value).versions = insert (key, ts) m.versions := by
  ext ⟨key', ts'⟩
  rw [Set.mem_insert_iff, mem_versions, mem_versions, Prod.mk.injEq]
  constructor
  · rintro ⟨e, he, rfl, rfl⟩
    rcases mem_iter_record.mp he with rfl | ⟨he, _⟩
    · exact Or.inl ⟨rfl, rfl⟩
    · exact Or.inr ⟨e, he, rfl, rfl⟩
  · rintro (⟨rfl, rfl⟩ | ⟨e, he, rfl, rfl⟩)
    · exact ⟨_, mem_iter_record.mpr (Or.inl rfl), rfl, rfl⟩
    · by_cases hkey : e.1 = ⟨key, ts⟩
      · refine ⟨_, mem_iter_record.mpr (Or.inl rfl), ?_, ?_⟩
        · rw [hkey]
        · rw [hkey]
      · exact ⟨e, mem_iter_record.mpr (Or.inr ⟨he, hkey⟩), rfl, rfl⟩

/-- What a read at `ts` finds in one memtable is its newest version up to `ts`. -/
theorem getAtTs_eq_some_iff_isNewest {m : MemTable} {key : Bytes} {ts : ℕ} {value : Option Bytes} :
    m.getAtTs key ts = some value ↔
      ∃ t, (⟨key, t⟩, value) ∈ m.iter ∧ Versions.IsNewest [m.versions] key ts t := by
  rw [getAtTs_eq_some_iff]
  refine exists_congr fun t => ?_
  constructor
  · rintro ⟨hle, hmem, hnewest⟩
    refine ⟨hmem, ⟨_, List.mem_singleton_self _, _, hmem, rfl, rfl⟩, hle, ?_⟩
    intro a ha t' ht' hle'
    rw [List.mem_singleton.mp ha] at ht'
    obtain ⟨e, he, hdata, rfl⟩ := ht'
    exact hnewest e he hdata hle'
  · rintro ⟨hmem, hnewest⟩
    refine ⟨hnewest.le_limit, hmem, ?_⟩
    intro e he hdata hle
    exact hnewest.newest _ (List.mem_singleton_self _) _ ⟨e, he, hdata, rfl⟩ hle

theorem notMem_of_getAtTs_eq_none {m : MemTable} {key : Bytes} {ts t : ℕ}
    (hnone : m.getAtTs key ts = none) (hmem : (key, t) ∈ m.versions) : ¬ t ≤ ts := by
  obtain ⟨e, he, hdata, rfl⟩ := hmem
  exact not_le.mpr (getAtTs_eq_none_iff.mp hnone e he hdata)

end MemTable

namespace LsmThreads

/-- Every version in a source is newer than every version of its key in later sources. -/
def Recent (t : LsmThreads) : Prop := Versions.Ordered (t.sources.map MemTable.versions)

/-- The tables of level 0 have the entries of the memtables recorded for them. -/
def Recorded (t : LsmThreads) : Prop :=
  List.Forall₂ (fun sst m => sst.Holds (m.iter.map fun e => (e.1.data, e.2)))
    (t.lsm.levels 0) t.flushed

theorem recent_iff (t : LsmThreads) :
    t.Recent ↔ t.sources.Pairwise fun m m' => ∀ e ∈ m.iter, ∀ e' ∈ m'.iter,
      e.1.data = e'.1.data → e'.1.timestamp < e.1.timestamp := by
  unfold Recent Versions.Ordered
  rw [List.pairwise_map]
  apply List.Pairwise.iff
  intro m m'
  constructor
  · intro hnewer e he e' he' hkey
    exact hnewer e.1.data _ _ ⟨e, he, rfl, rfl⟩ ⟨e', he', hkey.symm, rfl⟩
  · rintro hnewer key _ _ ⟨e, he, hkey, rfl⟩ ⟨e', he', hkey', rfl⟩
    exact hnewer e he e' he' (hkey.trans hkey'.symm)

instance (t : LsmThreads) : Decidable t.Recent := decidable_of_iff _ (recent_iff t).symm

/-! ## Steps that keep the order -/

/-- A finishing operation keeps the order: what it writes is newer than the versions of
the same key that have left the memtable, and if it flushes the memtable, no immutable
memtable that an earlier rotation has left behind has a key in common with it. -/
structure OrderlyFinish (t : LsmThreads) (ts : ℕ) (op : Op) (faults : Faults IoCall) : Prop where
  write : faults .walAppend = false → ∀ w ∈ op.operations.zipIdx ts,
    ∀ m ∈ t.lsm.immutableMemtables ++ t.flushed, ∀ e ∈ m.iter,
      e.1.data = w.1.key → e.1.timestamp < w.2
  flush : t.Flushes ts op faults → ∀ m ∈ t.lsm.immutableMemtables, ∀ e ∈ m.iter,
    ∀ e' ∈ (t.written ts op faults).memtable.iter, e.1.data ≠ e'.1.data

instance (t : LsmThreads) (ts : ℕ) (op : Op) (faults : Faults IoCall) :
    Decidable (t.OrderlyFinish ts op faults) :=
  decidable_of_iff ((faults .walAppend = false → ∀ w ∈ op.operations.zipIdx ts,
      ∀ m ∈ t.lsm.immutableMemtables ++ t.flushed, ∀ e ∈ m.iter,
        e.1.data = w.1.key → e.1.timestamp < w.2) ∧
    (t.Flushes ts op faults → ∀ m ∈ t.lsm.immutableMemtables, ∀ e ∈ m.iter,
      ∀ e' ∈ (t.written ts op faults).memtable.iter, e.1.data ≠ e'.1.data))
    ⟨fun h => ⟨h.1, h.2⟩, fun h => ⟨h.1, h.2⟩⟩

/-- The step keeps the order of the sources; only a finishing write can break it. -/
def OrderlyStep (t : LsmThreads) : ThreadStep → Prop
  | .draw _ => True
  | .finish call faults => ∀ c ∈ t.drawn call, t.OrderlyFinish c.1 c.2 faults
  | .sync _ => True

instance (t : LsmThreads) : ∀ action, Decidable (t.OrderlyStep action)
  | .draw _ => inferInstanceAs (Decidable True)
  | .finish _ _ => inferInstanceAs (Decidable (∀ c ∈ _, _))
  | .sync _ => inferInstanceAs (Decidable True)

/-- Writes that are newer than the later sources keep the order. -/
theorem ordered_writes {s : Lsm} {ts : ℕ} {operations : List BatchOperation}
    {older : List (Set (Bytes × ℕ))}
    (hordered : Versions.Ordered (s.memtable.versions :: older))
    (hnewer : ∀ w ∈ operations.zipIdx ts, ∀ b ∈ older, ∀ t', (w.1.key, t') ∈ b → t' < w.2) :
    Versions.Ordered ((s.writes ts operations).memtable.versions :: older) := by
  induction operations generalizing s ts with
  | nil => exact hordered
  | cons op rest ih =>
      rw [List.zipIdx_cons, List.forall_mem_cons] at hnewer
      have hfirst : Versions.Ordered ((s.write op.key op.effect ts).memtable.versions :: older) := by
        have hversions : (s.write op.key op.effect ts).memtable.versions =
            insert (op.key, ts) s.memtable.versions :=
          MemTable.versions_record s.memtable op.key ts op.effect
        rw [hversions]
        exact Versions.ordered_insert_iff.mpr ⟨hordered, hnewer.1⟩
      exact ih hfirst hnewer.2

theorem recent_written {t : LsmThreads} {ts : ℕ} {op : Op} {faults : Faults IoCall}
    (hrecent : t.Recent) (horderly : t.OrderlyFinish ts op faults) :
    Versions.Ordered ((t.written ts op faults).memtable.versions ::
      (t.lsm.immutableMemtables.reverse ++ t.flushed.reverse).map MemTable.versions) := by
  unfold written
  split
  · exact hrecent
  · next happended =>
      apply ordered_writes hrecent
      intro w hw b hb t' ht'
      obtain ⟨m, hm, rfl⟩ := List.mem_map.mp hb
      obtain ⟨e, he, hkey, rfl⟩ := ht'
      apply horderly.write (by simpa using happended) w hw m _ e he hkey
      simpa using hm

@[simp] theorem immutableMemtables_written (t : LsmThreads) (ts : ℕ) (op : Op)
    (faults : Faults IoCall) :
    (t.written ts op faults).immutableMemtables = t.lsm.immutableMemtables := by
  unfold written
  split
  · rfl
  · exact Lsm.immutableMemtables_writes t.lsm ts op.operations

@[simp] theorem levels_written (t : LsmThreads) (ts : ℕ) (op : Op) (faults : Faults IoCall) :
    (t.written ts op faults).levels = t.lsm.levels := by
  unfold written
  split
  · rfl
  · exact Lsm.levels_writes t.lsm ts op.operations

/-- What finishing does to the tree. -/
theorem lsm_finish (t : LsmThreads) (ts : ℕ) (op : Op) (faults : Faults IoCall) :
    (exec (op.finish faults ts) t.lsm).2 =
      if t.Rotates ts op faults then
        (exec (Lsm.rotateMemtable faults) (t.written ts op faults)).2
      else t.written ts op faults := by
  rw [Op.exec_finish]
  unfold Rotates written
  by_cases happend : faults .walAppend = true
  · simp [happend]
  · simp only [Bool.not_eq_true] at happend
    simp only [happend, Bool.false_eq_true, if_false, true_and]
    split <;> rfl

/-- The three ways in which finishing an operation can end. -/
theorem finish_cases (t : LsmThreads) (ts : ℕ) (op : Op) (faults : Faults IoCall) :
    (¬ t.Flushes ts op faults ∧
      (exec (op.finish faults ts) t.lsm).2 = t.written ts op faults) ∨
    (t.Flushes ts op faults ∧
      (exec (op.finish faults ts) t.lsm).2 = (t.written ts op faults).rotate) ∨
    (¬ t.Flushes ts op faults ∧
      Lsm.Stranded (t.written ts op faults) (exec (op.finish faults ts) t.lsm).2) := by
  rw [lsm_finish]
  by_cases hrotates : t.Rotates ts op faults
  · rw [if_pos hrotates]
    by_cases hnone : ∀ call ∈ Lsm.rotationCalls, faults call = false
    · rw [Lsm.rotateMemtable_succeeds _ hnone]
      exact Or.inr (Or.inl ⟨⟨hrotates, hnone⟩, rfl⟩)
    · have hfault : ∃ call ∈ Lsm.rotationCalls, faults call = true := by
        push Not at hnone
        simpa using hnone
      exact Or.inr (Or.inr ⟨fun h => hnone h.2, Lsm.rotateMemtable_fails _ hfault⟩)
  · rw [if_neg hrotates]
    exact Or.inl ⟨fun h => hrotates h.1, rfl⟩

theorem Recent.finish {t : LsmThreads} {call ts : ℕ} {op : Op} {faults : Faults IoCall}
    (hrecent : t.Recent) (hdrawn : t.drawn call = some (ts, op))
    (horderly : t.OrderlyFinish ts op faults) : (t.step (.finish call faults)).Recent := by
  have hwritten := recent_written hrecent horderly
  unfold Recent sources
  rw [step, hdrawn]
  rcases finish_cases t ts op faults with ⟨hnot, hlsm⟩ | ⟨hflushes, hlsm⟩ | ⟨hnot, hstranded⟩
  · -- the memtable stays where it is
    simp only [hlsm, if_neg hnot, immutableMemtables_written]
    exact hwritten
  · -- it goes to the end of level 0, behind the immutable memtables
    simp only [hlsm, if_pos hflushes, Lsm.memtable_rotate, Lsm.immutableMemtables_rotate,
      immutableMemtables_written, List.reverse_append, List.reverse_singleton,
      List.singleton_append, List.map_cons, List.map_append, MemTable.versions_new,
      Versions.ordered_empty_cons]
    rw [List.map_append] at hwritten
    rw [Versions.ordered_move_iff hwritten]
    intro b hb key t t' ht ht'
    obtain ⟨m, hm, rfl⟩ := List.mem_map.mp hb
    obtain ⟨e, he, rfl, rfl⟩ := ht
    obtain ⟨e', he', hkey, rfl⟩ := ht'
    exact horderly.flush hflushes m (List.mem_reverse.mp hm) e' he' e he hkey
  · -- it becomes the last of the immutable memtables
    simp only [hstranded.memtable, hstranded.immutableMemtables, if_neg hnot,
      immutableMemtables_written, List.reverse_append, List.reverse_singleton, List.cons_append,
      List.nil_append, List.map_cons, MemTable.versions_new,
      Versions.ordered_empty_cons]
    exact hwritten

theorem exec_sync_cases (s : Lsm) (faults : Faults IoCall) :
    (exec (Lsm.sync faults) s).2 = s ∨ (exec (Lsm.sync faults) s).2 = s.flushWal := by
  unfold Lsm.sync
  rw [exec_attempt_bind_eq]
  split
  · exact Or.inl rfl
  · exact Or.inr rfl

theorem Recent.step {t : LsmThreads} {action : ThreadStep} (hrecent : t.Recent)
    (horderly : t.OrderlyStep action) : (t.step action).Recent := by
  cases action with
  | draw op =>
      rw [LsmThreads.step]
      split
      · exact hrecent
      · exact hrecent
  | finish call faults =>
      cases hdrawn : t.drawn call with
      | none =>
          rw [LsmThreads.step, hdrawn]
          exact hrecent
      | some c =>
          obtain ⟨ts, op⟩ := c
          exact hrecent.finish hdrawn (horderly _ hdrawn)
  | sync faults =>
      rw [LsmThreads.step]
      rcases exec_sync_cases t.lsm faults with hlsm | hlsm
      · rw [hlsm]
        exact hrecent
      · rw [hlsm]
        exact hrecent

/-! ## What level 0 was written from -/

theorem Recorded.step {t : LsmThreads} (hrecorded : t.Recorded) (action : ThreadStep) :
    (t.step action).Recorded := by
  cases action with
  | draw op =>
      rw [LsmThreads.step]
      split
      · exact hrecorded
      · exact hrecorded
  | finish call faults =>
      cases hdrawn : t.drawn call with
      | none =>
          rw [LsmThreads.step, hdrawn]
          exact hrecorded
      | some c =>
          obtain ⟨ts, op⟩ := c
          unfold Recorded
          rw [LsmThreads.step, hdrawn]
          rcases finish_cases t ts op faults with
            ⟨hnot, hlsm⟩ | ⟨hflushes, hlsm⟩ | ⟨hnot, hstranded⟩
          · simp only [hlsm, if_neg hnot, levels_written]
            exact hrecorded
          · simp only [hlsm, if_pos hflushes, Lsm.levels_rotate, Function.update_self,
              levels_written]
            -- the table of the flush goes to the end of level 0
            apply List.rel_append hrecorded
            exact List.Forall₂.cons (Lsm.holds_nextTable _) List.Forall₂.nil
          · simp only [hstranded.levels, if_neg hnot, levels_written]
            exact hrecorded
  | sync faults =>
      unfold Recorded
      rw [LsmThreads.step]
      unfold Lsm.sync
      rw [exec_attempt_bind_eq]
      split
      · exact hrecorded
      · exact hrecorded

/-! ## Runs -/

/-- In a run of any number of threads that starts in order and whose steps are orderly, the
sources are in order, level 0 being what was flushed, and the first source that has a
version of a key up to a limit has the newest of all the sources. -/
theorem recent_run (memtableSize : ℕ) (dir : Dir) (flushed : List MemTable)
    (hrecorded : (start memtableSize dir flushed).Recorded)
    (hstart : (start memtableSize dir flushed).Recent) (steps : List ThreadStep)
    (hsteps : Along step OrderlyStep (start memtableSize dir flushed) steps) :
    (run step (start memtableSize dir flushed) steps).Recorded ∧
    (run step (start memtableSize dir flushed) steps).Recent ∧
    ∀ key limit newer m older,
      (run step (start memtableSize dir flushed) steps).sources = newer ++ m :: older →
      (∀ m' ∈ newer, m'.getAtTs key limit = none) → ∀ value, m.getAtTs key limit = some value →
      ∃ ts, (⟨key, ts⟩, value) ∈ m.iter ∧ Versions.IsNewest
        ((run step (start memtableSize dir flushed) steps).sources.map MemTable.versions)
        key limit ts := by
  have hrecent : (run step (start memtableSize dir flushed) steps).Recent :=
    hsteps.invariant Recent (fun _ _ h horderly => h.step horderly) hstart
  refine ⟨invariant Recorded (fun _ action h => h.step action) hrecorded steps, hrecent, ?_⟩
  intro key limit newer m older hsources hnewer value hvalue
  obtain ⟨ts, hmem, hnewest⟩ := MemTable.getAtTs_eq_some_iff_isNewest.mp hvalue
  refine ⟨ts, hmem, ?_⟩
  unfold Recent at hrecent
  rw [hsources, List.map_append, List.map_cons] at hrecent ⊢
  apply Versions.isNewest_of_first hrecent _ hnewest
  intro b hb t' ht'
  obtain ⟨m', hm', rfl⟩ := List.mem_map.mp hb
  exact MemTable.notMem_of_getAtTs_eq_none (hnewer m' hm') ht'

/-- Two threads that write different keys, out of the order of their timestamps, a flush,
and a rotation that fails. -/
theorem recent_run_twoThreads :
    (run step (start 3 Dir.empty [])
      [.draw (.put [1] [1]), .draw (.put [2] [2, 2]), .finish 1 noFaults, .finish 0 noFaults,
        .draw (.put [1] [3]), .finish 2 fun call => call = .sstBuild]).Recent :=
  (recent_run 3 Dir.empty [] List.Forall₂.nil (by decide +kernel) _ (by decide +kernel)).2.1

/-- The thread that drew first writes last, after a rotation; and a rotation that fails,
followed by one that succeeds. -/
theorem not_recent_run :
    ¬ (run step (start 3 Dir.empty [])
      [.draw (.put [1] [1]), .draw (.put [1] [2, 2]), .finish 1 noFaults,
        .finish 0 noFaults]).Recent ∧
    ¬ (run step (start 3 Dir.empty [])
      [.draw (.put [1] [1, 1]), .finish 0 fun call => call = .sstBuild, .draw (.put [1] [2, 2]),
        .finish 1 noFaults]).Recent := by
  decide +kernel

/-! ## Timestamps of the counter -/

/-- The timestamp is that of a version in one of the sources. -/
def Stored (t : LsmThreads) (ts : ℕ) : Prop := ∃ m ∈ t.sources, ∃ key, (key, ts) ∈ m.versions

/-- The timestamp is one that a call has drawn and not written yet. -/
def Pending (t : LsmThreads) (call ts : ℕ) : Prop :=
  ∃ c ∈ t.drawn call, c.1 ≤ ts ∧ ts < c.1 + c.2.operations.length

/-- The counter is behind all timestamps, and none belongs to two calls or to a call and a
version. -/
structure Spaced (t : LsmThreads) : Prop where
  fresh : ∀ call, t.nextCall ≤ call → t.drawn call = none
  below : ∀ call ts, t.Pending call ts → ts < t.lsm.nextTs
  single : ∀ call call' ts, t.Pending call ts → t.Pending call' ts → call = call'
  stored : ∀ ts, t.Stored ts → ts < t.lsm.nextTs ∧ ∀ call, ¬ t.Pending call ts

theorem mem_versions_writes {s : Lsm} {ts : ℕ} {operations : List BatchOperation} {key : Bytes}
    {x : ℕ} (h : (key, x) ∈ (s.writes ts operations).memtable.versions) :
    (key, x) ∈ s.memtable.versions ∨ ts ≤ x ∧ x < ts + operations.length := by
  induction operations generalizing s ts with
  | nil => exact Or.inl h
  | cons op rest ih =>
      rw [List.length_cons]
      rcases ih h with hold | hnew
      · have hversions : (s.write op.key op.effect ts).memtable.versions =
            insert (op.key, ts) s.memtable.versions :=
          MemTable.versions_record s.memtable op.key ts op.effect
        rw [hversions] at hold
        rcases hold with heq | hold
        · obtain ⟨-, rfl⟩ := Prod.mk.inj heq
          exact Or.inr ⟨le_rfl, by omega⟩
        · exact Or.inl hold
      · exact Or.inr ⟨by omega, by omega⟩

/-- A memtable of the sources after a finish is a new one, the one written to, or an old one. -/
theorem mem_sources_finish {t : LsmThreads} {call ts : ℕ} {op : Op} {faults : Faults IoCall}
    (hdrawn : t.drawn call = some (ts, op)) {m : MemTable}
    (hm : m ∈ (t.step (.finish call faults)).sources) :
    m = MemTable.new ∨ m = (t.written ts op faults).memtable ∨
      m ∈ t.lsm.immutableMemtables ++ t.flushed := by
  unfold sources at hm
  rw [step, hdrawn] at hm
  rcases finish_cases t ts op faults with ⟨hnot, hlsm⟩ | ⟨hflushes, hlsm⟩ | ⟨hnot, hstranded⟩
  · simp only [hlsm, if_neg hnot, immutableMemtables_written] at hm
    simp only [List.mem_cons, List.mem_append, List.mem_reverse] at hm ⊢
    grind
  · simp only [hlsm, if_pos hflushes, Lsm.memtable_rotate, Lsm.immutableMemtables_rotate,
      immutableMemtables_written] at hm
    simp only [List.mem_cons, List.mem_append, List.mem_reverse, List.not_mem_nil, or_false] at hm ⊢
    grind
  · simp only [hstranded.memtable, hstranded.immutableMemtables, if_neg hnot,
      immutableMemtables_written] at hm
    simp only [List.mem_cons, List.mem_append, List.mem_reverse, List.not_mem_nil, or_false] at hm ⊢
    grind

theorem nextTs_finish (t : LsmThreads) (ts : ℕ) (op : Op) (faults : Faults IoCall) :
    (exec (op.finish faults ts) t.lsm).2.nextTs = t.lsm.nextTs := by
  have hwritten : (t.written ts op faults).nextTs = t.lsm.nextTs := by
    unfold written
    split
    · rfl
    · exact Lsm.nextTs_writes t.lsm ts op.operations
  rcases finish_cases t ts op faults with ⟨-, hlsm⟩ | ⟨-, hlsm⟩ | ⟨-, hstranded⟩
  · rw [hlsm, hwritten]
  · rw [hlsm, Lsm.nextTs_rotate, hwritten]
  · rw [hstranded.nextTs, hwritten]

/-- What a finish stores is what was stored, or a timestamp of the call. -/
theorem stored_finish {t : LsmThreads} {call ts : ℕ} {op : Op} {faults : Faults IoCall}
    (hdrawn : t.drawn call = some (ts, op)) {x : ℕ}
    (hstored : (t.step (.finish call faults)).Stored x) : t.Stored x ∨ t.Pending call x := by
  obtain ⟨m, hm, key, hversion⟩ := hstored
  rcases mem_sources_finish hdrawn hm with rfl | rfl | hold
  · rw [MemTable.versions_new] at hversion
    exact absurd hversion (Set.notMem_empty _)
  · unfold written at hversion
    split at hversion
    · exact Or.inl ⟨_, List.mem_cons_self, key, hversion⟩
    · rcases mem_versions_writes hversion with hold | hnew
      · exact Or.inl ⟨_, List.mem_cons_self, key, hold⟩
      · exact Or.inr ⟨(ts, op), hdrawn, hnew⟩
  · refine Or.inl ⟨m, List.mem_cons_of_mem _ ?_, key, hversion⟩
    simpa using hold

theorem pending_finish {t : LsmThreads} {call : ℕ} {c : ℕ × Op} {faults : Faults IoCall}
    (hdrawn : t.drawn call = some c) {call' x : ℕ}
    (h : (t.step (.finish call faults)).Pending call' x) : call' ≠ call ∧ t.Pending call' x := by
  obtain ⟨c', hc', hrange⟩ := h
  rw [step, hdrawn] at hc'
  simp only [Function.update_apply, Option.mem_def] at hc'
  split at hc'
  · contradiction
  · next hne => exact ⟨hne, c', hc', hrange⟩

theorem Spaced.finish {t : LsmThreads} (h : t.Spaced) (call : ℕ) (faults : Faults IoCall) :
    (t.step (.finish call faults)).Spaced := by
  cases hdrawn : t.drawn call with
  | none =>
      rw [LsmThreads.step, hdrawn]
      exact h
  | some c =>
      obtain ⟨ts, op⟩ := c
      have hnext : (t.step (.finish call faults)).lsm.nextTs = t.lsm.nextTs := by
        rw [LsmThreads.step, hdrawn]
        exact nextTs_finish t ts op faults
      refine ⟨?_, ?_, ?_, ?_⟩
      -- the number of the call is free again, and no later one is taken
      · intro call' hcall'
        rw [LsmThreads.step, hdrawn] at hcall' ⊢
        show Function.update t.drawn call none call' = none
        rw [Function.update_apply]
        split
        · rfl
        · exact h.fresh call' hcall'
      · intro call' x hpending
        rw [hnext]
        exact h.below call' x (pending_finish hdrawn hpending).2
      · intro call₁ call₂ x hfirst hsecond
        exact h.single call₁ call₂ x (pending_finish hdrawn hfirst).2
          (pending_finish hdrawn hsecond).2
      · intro x hstored
        rw [hnext]
        rcases stored_finish hdrawn hstored with hold | hwritten
        · obtain ⟨hlt, hnone⟩ := h.stored x hold
          exact ⟨hlt, fun call' hpending => hnone call' (pending_finish hdrawn hpending).2⟩
        · -- the timestamp was that of the call, which has none any more
          refine ⟨h.below call x hwritten, fun call' hpending => ?_⟩
          obtain ⟨hne, hpending⟩ := pending_finish hdrawn hpending
          exact hne (h.single call' call x hpending hwritten)

theorem pending_draw {t : LsmThreads} {op : Op} (hop : op.operations.isEmpty = false) {call x : ℕ}
    (h : (t.step (.draw op)).Pending call x) :
    (call = t.nextCall ∧ t.lsm.nextTs ≤ x ∧ x < t.lsm.nextTs + op.operations.length) ∨
      t.Pending call x := by
  obtain ⟨c, hc, hrange⟩ := h
  rw [step, hop] at hc
  simp only [Bool.false_eq_true, if_false, Function.update_apply, Option.mem_def] at hc
  split at hc
  · next hcall =>
      obtain rfl := Option.some.inj hc
      exact Or.inl ⟨hcall, hrange⟩
  · exact Or.inr ⟨c, hc, hrange⟩

theorem Spaced.draw {t : LsmThreads} (h : t.Spaced) (op : Op) : (t.step (.draw op)).Spaced := by
  cases hop : op.operations.isEmpty with
  | true =>
      rw [LsmThreads.step, hop]
      exact h
  | false =>
      have hnext : (t.step (.draw op)).lsm.nextTs = t.lsm.nextTs + op.operations.length := by
        rw [LsmThreads.step, hop]
        rfl
      have hsources : (t.step (.draw op)).sources = t.sources := by
        rw [LsmThreads.step, hop]
        rfl
      refine ⟨?_, ?_, ?_, ?_⟩
      -- the new call has the next number and the timestamps from the counter on
      · intro call hcall
        rw [LsmThreads.step, hop] at hcall ⊢
        have hcall : t.nextCall + 1 ≤ call := hcall
        show Function.update t.drawn t.nextCall _ call = none
        rw [Function.update_of_ne (by omega)]
        exact h.fresh call (by omega)
      · intro call x hpending
        rw [hnext]
        rcases pending_draw hop hpending with ⟨-, -, hlt⟩ | hold
        · exact hlt
        · exact (h.below call x hold).trans_le (Nat.le_add_right _ _)
      · intro call₁ call₂ x hfirst hsecond
        rcases pending_draw hop hfirst with ⟨hcall₁, hle₁, -⟩ | hold₁ <;>
          rcases pending_draw hop hsecond with ⟨hcall₂, hle₂, -⟩ | hold₂
        · exact hcall₁.trans hcall₂.symm
        · exact absurd (h.below call₂ x hold₂) (not_lt.mpr hle₁)
        · exact absurd (h.below call₁ x hold₁) (not_lt.mpr hle₂)
        · exact h.single call₁ call₂ x hold₁ hold₂
      · intro x hstored
        have hold : t.Stored x := by
          unfold Stored at hstored ⊢
          rwa [hsources] at hstored
        obtain ⟨hlt, hnone⟩ := h.stored x hold
        rw [hnext]
        refine ⟨hlt.trans_le (Nat.le_add_right _ _), fun call hpending => ?_⟩
        -- what is stored is below the counter, so it is not drawn again
        rcases pending_draw hop hpending with ⟨-, hle, -⟩ | hpending
        · exact absurd hlt (not_lt.mpr hle)
        · exact hnone call hpending

theorem Spaced.step {t : LsmThreads} (h : t.Spaced) (action : ThreadStep) :
    (t.step action).Spaced := by
  cases action with
  | draw op => exact h.draw op
  | finish call faults => exact h.finish call faults
  | sync faults =>
      rw [LsmThreads.step]
      rcases exec_sync_cases t.lsm faults with hlsm | hlsm
      · rw [hlsm]
        exact h
      · rw [hlsm]
        exact ⟨h.fresh, h.below, h.single, h.stored⟩

/-- No version of a key that was drawn later has left the memtable when an older one is written,
and what is flushed has no key in common with an immutable memtable left over. -/
structure UnpassedFinish (t : LsmThreads) (ts : ℕ) (op : Op) (faults : Faults IoCall) : Prop where
  write : faults .walAppend = false → ∀ w ∈ op.operations.zipIdx ts,
    ∀ m ∈ t.lsm.immutableMemtables ++ t.flushed, ∀ e ∈ m.iter,
      e.1.data = w.1.key → ¬ w.2 < e.1.timestamp
  flush : t.Flushes ts op faults → ∀ m ∈ t.lsm.immutableMemtables, ∀ e ∈ m.iter,
    ∀ e' ∈ (t.written ts op faults).memtable.iter, e.1.data ≠ e'.1.data

/-- The step is no write that a later one has passed. -/
def UnpassedStep (t : LsmThreads) : ThreadStep → Prop
  | .draw _ => True
  | .finish call faults => ∀ c ∈ t.drawn call, t.UnpassedFinish c.1 c.2 faults
  | .sync _ => True

/-- The counter gives no timestamp twice, so that what is not newer is older. -/
theorem Spaced.orderly {t : LsmThreads} (h : t.Spaced) {action : ThreadStep}
    (hunpassed : t.UnpassedStep action) : t.OrderlyStep action := by
  cases action with
  | draw op => trivial
  | finish call faults =>
      intro c hc
      obtain ⟨hwrite, hflush⟩ := hunpassed c hc
      refine ⟨fun happended w hw m hm e he hkey => ?_, hflush⟩
      have hstored : t.Stored e.1.timestamp := by
        refine ⟨m, List.mem_cons_of_mem _ ?_, e.1.data, e, he, rfl, rfl⟩
        simpa using hm
      have hpending : t.Pending call w.2 := by
        obtain ⟨hle, hlt, -⟩ := List.mem_zipIdx hw
        exact ⟨c, hc, hle, hlt⟩
      have hne : e.1.timestamp ≠ w.2 := by
        intro heq
        rw [← heq] at hpending
        exact (h.stored _ hstored).2 call hpending
      exact lt_of_le_of_ne (not_lt.mp (hwrite happended w hw m hm e he hkey)) hne
  | sync faults => trivial

/-- In a run that starts in order, with the counter behind all versions, the sources stay in order
if no write has been passed by a later one of its key. -/
theorem recent_of_unpassed (memtableSize : ℕ) (dir : Dir) (flushed : List MemTable)
    (hstart : (start memtableSize dir flushed).Recent)
    (hbehind : ∀ ts, (start memtableSize dir flushed).Stored ts →
      ts < (start memtableSize dir flushed).lsm.nextTs) (steps : List ThreadStep)
    (hsteps : Along step UnpassedStep (start memtableSize dir flushed) steps) :
    (run step (start memtableSize dir flushed) steps).Recent := by
  have hspaced : (start memtableSize dir flushed).Spaced := by
    have hnone : ∀ call ts, ¬ (start memtableSize dir flushed).Pending call ts := by
      rintro call ts ⟨c, hc, -⟩
      exact absurd hc (Option.not_mem_none c)
    refine ⟨fun _ _ => rfl, ?_, ?_, ?_⟩
    · intro call ts hpending
      exact absurd hpending (hnone call ts)
    · intro call _ ts hpending
      exact absurd hpending (hnone call ts)
    · intro ts hstored
      exact ⟨hbehind ts hstored, fun call => hnone call ts⟩
  have hboth : (run step (start memtableSize dir flushed) steps).Spaced ∧
      (run step (start memtableSize dir flushed) steps).Recent :=
    hsteps.invariant (fun t => t.Spaced ∧ t.Recent)
      (fun _ action h hunpassed => ⟨h.1.step action, h.2.step (h.1.orderly hunpassed)⟩)
      ⟨hspaced, hstart⟩
  exact hboth.2

end LsmThreads
end Crabstash

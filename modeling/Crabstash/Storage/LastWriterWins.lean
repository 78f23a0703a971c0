import Crabstash.Storage.Session

/-!
# Reads return the last write

What `Lsm::get` is for: a key-value map in which the last write of a key wins.
The abstract map is a function from keys to optional values, `overwrite` is a
write to it, and `lastWrite` is the map after a list of operations.

The tree refines the map in every run whose flushes are safe (`get_run`), for
every memtable size and so for every placement of the flushes.  Both halves of
`FlushSafe` are needed: a tombstone in a table does not hide the value in an
older one, and `get_ne_lastWrite` is a run of three operations that ends with a
deleted key readable again.
-/

namespace Crabstash

open Run

/-- One write to the abstract map. -/
def overwrite (m : Bytes → Option Bytes) (op : BatchOperation) : Bytes → Option Bytes :=
  Function.update m op.key op.effect

/-- An operation on the abstract map: its writes in order. -/
def Op.overwrite (m : Bytes → Option Bytes) (op : Op) : Bytes → Option Bytes :=
  op.operations.foldl Crabstash.overwrite m

/-- The value each key was last given, or none if it was deleted or never written. -/
def lastWrite (ops : List Op) : Bytes → Option Bytes := run Op.overwrite (fun _ => none) ops

namespace Lsm

/-- If the operation rotates the memtable, the flush is safe for every key in it. -/
def SafeStep (s : Lsm) (op : Op) : Prop :=
  s.Rotates op → ∀ e ∈ (s.logged op).memtable.iter, (s.logged op).FlushSafe e.1.data

instance (s : Lsm) (op : Op) : Decidable (s.SafeStep op) :=
  inferInstanceAs (Decidable (_ → _))

/-- A key without a version in the memtable is not affected by its flush. -/
theorem flushSafe_of_absent {s : Lsm} {key : Bytes}
    (habsent : ∀ e ∈ s.memtable.iter, e.1.data ≠ key) : s.FlushSafe key := by
  constructor
  · refine List.pairwise_of_forall_mem_list ?_
    intro block hblock block' _ ⟨hkey, _⟩
    obtain ⟨entry, hentry, rfl⟩ := List.mem_map.mp hkey
    have hmem : entry ∈ s.nextTable.blocks.flatten := List.mem_flatten_of_mem hblock hentry
    rw [(holds_nextTable s).flatten_blocks] at hmem
    obtain ⟨e, he, rfl⟩ := List.mem_map.mp hmem
    exact habsent e he rfl
  · intro hnewest
    rw [MemTable.newest_eq_none_iff.mpr habsent] at hnewest
    contradiction

theorem flushSafe_of_forall_mem {s : Lsm}
    (hsafe : ∀ e ∈ s.memtable.iter, s.FlushSafe e.1.data) (key : Bytes) : s.FlushSafe key := by
  by_cases hkey : ∃ e ∈ s.memtable.iter, e.1.data = key
  · obtain ⟨e, he, rfl⟩ := hkey
    exact hsafe e he
  · push Not at hkey
    exact flushSafe_of_absent hkey

/-- The tree holds the abstract map `m`: nothing waits to be flushed, the timestamps of
the memtable have all been given out, and the newest values are those of the map. -/
structure Refines (s : Lsm) (m : Bytes → Option Bytes) : Prop where
  immutableMemtables : s.immutableMemtables = []
  below : s.Below s.nextTs
  newest : s.newest = m

theorem refines_open (memtableSize : ℕ) :
    Refines (openDir memtableSize Dir.empty) fun _ => none where
  immutableMemtables := rfl
  below := by
    intro e he
    exact absurd he List.not_mem_nil
  newest := rfl

theorem newest_write {s : Lsm} {ts : ℕ} (hbelow : s.Below ts) (op : BatchOperation) :
    (s.write op.key op.effect ts).newest = overwrite s.newest op := by
  funext key
  unfold overwrite
  by_cases hkey : op.key = key
  · subst hkey
    rw [Function.update_self]
    apply newest_write_self
    intro e he _
    exact (hbelow e he).le
  · rw [Function.update_of_ne (Ne.symm hkey), newest_write_of_ne s hkey]

theorem newest_writes {s : Lsm} {ts : ℕ} (hbelow : s.Below ts) (operations : List BatchOperation) :
    (s.writes ts operations).newest = operations.foldl overwrite s.newest := by
  induction operations generalizing s ts with
  | nil => rfl
  | cons op rest ih =>
      rw [writes, ih (hbelow.write op.key op.effect), newest_write hbelow, List.foldl_cons]

theorem Refines.logged {s : Lsm} {m : Bytes → Option Bytes} (h : s.Refines m) (op : Op) :
    (s.logged op).Refines (op.overwrite m) where
  immutableMemtables := (immutableMemtables_writes _ _ _).trans h.immutableMemtables
  below := by
    intro e he
    have hbelow : (s.advance op.operations.length).Below s.nextTs := h.below
    have hlt := hbelow.writes op.operations e he
    rw [Lsm.logged, nextTs_writes]
    exact hlt
  newest := by
    have hnewest : (s.advance op.operations.length).newest = m := h.newest
    have hbelow : (s.advance op.operations.length).Below s.nextTs := h.below
    rw [Lsm.logged, newest_writes hbelow, hnewest]
    rfl

theorem Refines.rotate {s : Lsm} {m : Bytes → Option Bytes} (h : s.Refines m)
    (hsafe : ∀ key, s.FlushSafe key) : s.rotate.Refines m where
  immutableMemtables := h.immutableMemtables
  below := by
    intro e he
    exact absurd he List.not_mem_nil
  newest := by
    funext key
    rw [newest_rotate h.immutableMemtables (hsafe key), h.newest]

theorem Refines.step {s : Lsm} {m : Bytes → Option Bytes} {op : Op} (h : s.Refines m)
    (hsafe : s.SafeStep op) : (s.step op).Refines (op.overwrite m) := by
  have hlogged := h.logged op
  rw [step_eq]
  split
  · next hrotates =>
      exact hlogged.rotate (flushSafe_of_forall_mem (hsafe hrotates))
  · exact hlogged

theorem Refines.get {s : Lsm} {m : Bytes → Option Bytes} (h : s.Refines m) (key : Bytes) :
    s.get key = m key := by
  have hle : ∀ e ∈ s.memtable.iter, e.1.data = key → e.1.timestamp ≤ s.nextTs := by
    intro e he _
    exact (h.below e he).le
  rw [Lsm.get, getAtTs_eq_newest h.immutableMemtables hle, h.newest]

/-- In a run from a fresh directory whose flushes are all safe, a read returns what the
last operation on the key left. -/
theorem get_run (memtableSize : ℕ) (ops : List Op)
    (hsafe : Along step SafeStep (openDir memtableSize Dir.empty) ops) (key : Bytes) :
    (run step (openDir memtableSize Dir.empty) ops).get key = lastWrite ops key := by
  have hrefines : Refines (run step (openDir memtableSize Dir.empty) ops) (lastWrite ops) :=
    hsafe.simulation (fun _ _ _ h hstep => h.step hstep) (refines_open memtableSize)
  exact hrefines.get key

/-- Two keys, each in a table of its own, one of them then deleted and written again. -/
theorem get_run_twoTables :
    (run step (openDir 2 Dir.empty)
      [.put [1] [1], .put [2] [2], .delete [1], .put [1] [3]]).get [1] =
      lastWrite [.put [1] [1], .put [2] [2], .delete [1], .put [1] [3]] [1] :=
  get_run 2 _ (by decide) [1]

/-- A key put, flushed and deleted: after the flush of the tombstone it is back. -/
theorem get_ne_lastWrite :
    (run step (openDir 2 Dir.empty) [.put [1] [1], .delete [1], .put [2] [2]]).get [1] ≠
      lastWrite [.put [1] [1], .delete [1], .put [2] [2]] [1] := by
  decide

end Lsm
end Crabstash

import Crabstash.Storage.Session

/-!
# Reads through a snapshot

`Snapshot` of the public interface: a timestamp, taken from the counter, at
which later reads are made.

A read at a fixed timestamp is not disturbed by a write whose timestamp is
larger (`getAtTs_writes`), and a flush keeps it as long as the memtable has no
version that the snapshot must not see, for in a table the timestamps are gone
(`getAtTs_rotate`).  Two things therefore go wrong.  The counter holds the
timestamp of the *next* write, so that write is visible to the snapshot; and a
flush of versions newer than the snapshot makes the newest of them visible.
`StableStep` excludes both for one key, and `snapshot_get_run` is what is left:
the snapshot is stable in every run whose steps are `StableStep`.
-/

namespace Crabstash

open Run

/-- A snapshot keeps its timestamp, and nothing of the storage. -/
structure Snapshot where
  ts : ℕ

/-- `Db::snapshot`. -/
def Lsm.snapshot (s : Lsm) : Snapshot := { ts := s.currentTs }

/-- `Snapshot::get`. -/
def Snapshot.get (snapshot : Snapshot) (s : Lsm) (key : Bytes) : Option Bytes :=
  s.getAtTs key snapshot.ts

namespace Lsm

/-- The place of the first write of the key among the writes of an operation. -/
def firstWriteOf (key : Bytes) (operations : List BatchOperation) : Option ℕ :=
  operations.findIdx? fun op => op.key = key

/-- A step that leaves a read of `key` at `ts` alone: the key is not written at a
timestamp up to `ts`, and if the memtable is rotated, its flush is safe for the key
and it has no version of the key newer than `ts`. -/
structure StableStep (key : Bytes) (ts : ℕ) (s : Lsm) (op : Op) : Prop where
  later : ∀ i ∈ firstWriteOf key op.operations, ts < s.nextTs + i
  flush : s.Rotates op → (s.logged op).FlushSafe key ∧
    ∀ e ∈ (s.logged op).memtable.iter, e.1.data = key → e.1.timestamp ≤ ts

instance (key : Bytes) (ts : ℕ) (s : Lsm) (op : Op) : Decidable (StableStep key ts s op) :=
  decidable_of_iff ((∀ i ∈ firstWriteOf key op.operations, ts < s.nextTs + i) ∧
    (s.Rotates op → (s.logged op).FlushSafe key ∧
      ∀ e ∈ (s.logged op).memtable.iter, e.1.data = key → e.1.timestamp ≤ ts))
    ⟨fun h => ⟨h.1, h.2⟩, fun h => ⟨h.1, h.2⟩⟩

theorem getAtTs_write {s : Lsm} (himm : s.immutableMemtables = []) {key key' : Bytes} {ts ts' : ℕ}
    (hlater : key' = key → ts < ts') (value : Option Bytes) :
    (s.write key' value ts').getAtTs key ts = s.getAtTs key ts := by
  have himm' : (s.write key' value ts').immutableMemtables = [] := himm
  have hmem : (s.write key' value ts').memtable.getAtTs key ts = s.memtable.getAtTs key ts :=
    MemTable.getAtTs_record_of_not value hlater
  rw [getAtTs_eq himm', getAtTs_eq himm, hmem]
  rfl

theorem getAtTs_writes {s : Lsm} (himm : s.immutableMemtables = []) {key : Bytes} {ts base : ℕ}
    (operations : List BatchOperation)
    (hlater : ∀ i ∈ firstWriteOf key operations, ts < base + i) :
    (s.writes base operations).getAtTs key ts = s.getAtTs key ts := by
  induction operations generalizing s base with
  | nil => rfl
  | cons op rest ih =>
      have hthis : op.key = key → ts < base := by
        intro hkey
        have := hlater 0 (by simp [firstWriteOf, List.findIdx?_cons, hkey])
        omega
      have hrest : ∀ i ∈ firstWriteOf key rest, ts < base + 1 + i := by
        intro i hi
        by_cases hkey : op.key = key
        · have := hthis hkey
          omega
        · have hmem : i + 1 ∈ firstWriteOf key (op :: rest) := by
            have hfirst : firstWriteOf key rest = some i := hi
            unfold firstWriteOf at hfirst ⊢
            simp [List.findIdx?_cons, hkey, hfirst]
          have := hlater (i + 1) hmem
          omega
      have himm' : (s.write op.key op.effect base).immutableMemtables = [] := himm
      rw [writes, ih himm' hrest, getAtTs_write himm hthis op.effect]

theorem getAtTs_rotate {s : Lsm} (himm : s.immutableMemtables = []) {key : Bytes} {ts : ℕ}
    (hsafe : s.FlushSafe key)
    (hold : ∀ e ∈ s.memtable.iter, e.1.data = key → e.1.timestamp ≤ ts) :
    s.rotate.getAtTs key ts = s.getAtTs key ts := by
  have himm' : s.rotate.immutableMemtables = [] := himm
  have hempty : ∀ e ∈ s.rotate.memtable.iter, e.1.data = key → e.1.timestamp ≤ ts := by
    intro e he
    exact absurd he List.not_mem_nil
  calc s.rotate.getAtTs key ts
      = s.rotate.newest key := getAtTs_eq_newest himm' hempty
    _ = s.newest key := newest_rotate himm hsafe
    _ = s.getAtTs key ts := (getAtTs_eq_newest himm hold).symm

theorem getAtTs_step {s : Lsm} (himm : s.immutableMemtables = []) {key : Bytes} {ts : ℕ} {op : Op}
    (hstable : StableStep key ts s op) : (s.step op).getAtTs key ts = s.getAtTs key ts := by
  have hadvance : (s.advance op.operations.length).immutableMemtables = [] := himm
  have hlogged : (s.logged op).getAtTs key ts = s.getAtTs key ts :=
    getAtTs_writes hadvance op.operations hstable.later
  have himm' : (s.logged op).immutableMemtables = [] :=
    (immutableMemtables_writes _ _ _).trans himm
  rw [step_eq]
  split
  · next hrotates =>
      obtain ⟨hsafe, hold⟩ := hstable.flush hrotates
      rw [getAtTs_rotate himm' hsafe hold, hlogged]
  · exact hlogged

/-- A snapshot keeps its value of a key in every later run whose steps are stable for the
key at the timestamp of the snapshot. -/
theorem snapshot_get_run {s : Lsm} (himm : s.immutableMemtables = []) (key : Bytes) (ops : List Op)
    (hstable : Along step (StableStep key s.snapshot.ts) s ops) :
    s.snapshot.get (run step s ops) key = s.get key := by
  have hinv : (run step s ops).immutableMemtables = [] ∧
      (run step s ops).getAtTs key s.snapshot.ts = s.getAtTs key s.snapshot.ts := by
    refine hstable.invariant (fun s' => s'.immutableMemtables = [] ∧
      s'.getAtTs key s.snapshot.ts = s.getAtTs key s.snapshot.ts) ?_ ⟨himm, rfl⟩
    intro s' op ⟨himm', hget⟩ hstep
    exact ⟨(immutableMemtables_step s' op).trans himm', (getAtTs_step himm' hstep).trans hget⟩
  exact hinv.2

/-- A key put before the snapshot, flushed after it, and then put again. -/
theorem snapshot_get_run_overwritten :
    (run step (openDir 4 Dir.empty) [.put [1] [1]]).snapshot.get
      (run step (run step (openDir 4 Dir.empty) [.put [1] [1]]) [.put [2] [2], .put [1] [3]])
      [1] = (run step (openDir 4 Dir.empty) [.put [1] [1]]).get [1] :=
  snapshot_get_run (s := run step (openDir 4 Dir.empty) [.put [1] [1]]) rfl [1] _ (by decide)

/-- The write right after the snapshot is seen through it. -/
theorem snapshot_get_ne :
    (openDir 100 Dir.empty).Reachable ∧
      (openDir 100 Dir.empty).snapshot.get (run step (openDir 100 Dir.empty) [.put [1] [1]]) [1] ≠
        (openDir 100 Dir.empty).get [1] :=
  ⟨⟨100, [], rfl⟩, by decide⟩

end Lsm
end Crabstash

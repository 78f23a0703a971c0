import Crabstash.Foundations.Run
import Crabstash.Storage.Lsm

/-!
# Sessions

The write operations of an `Lsm` as actions of a system (`Op`, `step`), what a
read sees without regard to timestamps (`newest`), and the effect of the two
things an operation is made of.

A logged write makes its value the newest (`newest_write_self`).  A rotation must not
change what is newest, and whether it does depends on what the memtable holds:
the new table forgets the timestamps, is searched by `SSTable.get`, and that
search reports a tombstone in the same way as a missing key, so that the tables
below it are asked next.  `FlushSafe` is the condition under which none of this
matters for a key, and `newest_rotate` says so.
-/

namespace Crabstash

open Crabstash.Action

/-- The write operations of the public interface. -/
inductive Op where
  | put (key value : Bytes)
  | delete (key : Bytes)
  | writeBatch (operations : List BatchOperation)
  deriving DecidableEq, Repr

namespace Op

/-- The call behind an operation. -/
def act (op : Op) (faults : Faults IoCall) : Action Lsm Unit :=
  match op with
  | put key value => Lsm.put faults key value
  | delete key => Lsm.delete faults key
  | writeBatch operations => Lsm.writeBatch faults operations

/-- The single writes of an operation, in order. -/
def operations : Op → List BatchOperation
  | put key value => [.put key value]
  | delete key => [.delete key]
  | writeBatch operations => operations

/-- Whether the operation looks at the size of the memtable at its end. -/
def checksSize : Op → Bool
  | put _ _ => true
  | delete _ => false
  | writeBatch operations => !operations.isEmpty

end Op

namespace Lsm

/-- One operation on a healthy file system. -/
def step (s : Lsm) (op : Op) : Lsm := (exec (op.act noFaults) s).2

/-- The state of an operation after it has logged and inserted its writes. -/
def logged (s : Lsm) (op : Op) : Lsm :=
  (s.advance op.operations.length).writes s.nextTs op.operations

/-- The operation goes on to rotate the memtable. -/
def Rotates (s : Lsm) (op : Op) : Prop := op.checksSize = true ∧ (s.logged op).full

instance (s : Lsm) (op : Op) : Decidable (s.Rotates op) := inferInstanceAs (Decidable (_ ∧ _))

theorem step_eq (s : Lsm) (op : Op) :
    s.step op = if s.Rotates op then (s.logged op).rotate else s.logged op := by
  unfold step Rotates
  cases op with
  | put key value =>
      rw [Op.act, exec_put]
      simp only [Op.checksSize, true_and]
      rfl
  | delete key =>
      rw [Op.act, exec_delete]
      simp only [Op.checksSize, Bool.false_eq_true, false_and, if_false]
      rfl
  | writeBatch operations =>
      rw [Op.act, exec_writeBatch]
      cases operations with
      | nil => rfl
      | cons op rest =>
          simp only [Op.checksSize, List.isEmpty_cons, Bool.not_false, true_and]
          rfl

/-! ## The newest value -/

/-- What a read with a late enough timestamp sees. -/
def newest (s : Lsm) (key : Bytes) : Option Bytes :=
  match s.memtable.newest key with
  | some value => value
  | none =>
      match s.immutableMemtables.reverse.findSome? fun imm => imm.newest key with
      | some value => value
      | none => probe s.levels key

theorem newest_eq {s : Lsm} (himm : s.immutableMemtables = []) (key : Bytes) :
    s.newest key = (s.memtable.newest key).getD (probe s.levels key) := by
  rw [newest, himm]
  cases s.memtable.newest key <;> rfl

theorem getAtTs_eq {s : Lsm} (himm : s.immutableMemtables = []) (key : Bytes) (ts : ℕ) :
    s.getAtTs key ts = (s.memtable.getAtTs key ts).getD (probe s.levels key) := by
  rw [getAtTs, himm]
  cases s.memtable.getAtTs key ts <;> rfl

theorem getAtTs_eq_newest {s : Lsm} (himm : s.immutableMemtables = []) {key : Bytes} {ts : ℕ}
    (hle : ∀ e ∈ s.memtable.iter, e.1.data = key → e.1.timestamp ≤ ts) :
    s.getAtTs key ts = s.newest key := by
  rw [getAtTs_eq himm, newest_eq himm, MemTable.getAtTs_eq_newest hle]

/-! ## A write -/

/-- A write with a timestamp that the memtable does not exceed becomes the newest. -/
theorem newest_write_self {s : Lsm} {key : Bytes} {ts : ℕ}
    (hle : ∀ e ∈ s.memtable.iter, e.1.data = key → e.1.timestamp ≤ ts) (value : Option Bytes) :
    (s.write key value ts).newest key = value := by
  have hself : (s.write key value ts).memtable.newest key = some value :=
    MemTable.newest_record_self value hle
  rw [newest, hself]

theorem newest_write_of_ne (s : Lsm) {key key' : Bytes} (hne : key ≠ key') (value : Option Bytes)
    (ts : ℕ) : (s.write key value ts).newest key' = s.newest key' := by
  have hother : (s.write key value ts).memtable.newest key' = s.memtable.newest key' :=
    MemTable.newest_record_of_ne value hne
  rw [newest, hother]
  rfl

/-- A write older than a version of its key in the memtable is not the newest. -/
theorem newest_write_of_older {s : Lsm} {key : Bytes} {ts : ℕ}
    (hnewer : ∃ e ∈ s.memtable.iter, e.1.data = key ∧ ts < e.1.timestamp) (value : Option Bytes) :
    (s.write key value ts).newest key = s.newest key := by
  have hsame : (s.write key value ts).memtable.newest key = s.memtable.newest key :=
    MemTable.newest_record_of_older value hnewer
  rw [newest, hsame]
  rfl

/-- All versions in the memtable are older than `ts`. -/
def Below (s : Lsm) (ts : ℕ) : Prop := ∀ e ∈ s.memtable.iter, e.1.timestamp < ts

theorem Below.write {s : Lsm} {ts : ℕ} (h : s.Below ts) (key : Bytes) (value : Option Bytes) :
    (s.write key value ts).Below (ts + 1) := by
  intro e he
  rcases MemTable.mem_iter_record.mp he with rfl | ⟨he, _⟩
  · exact Nat.lt_succ_self ts
  · exact Nat.lt_succ_of_lt (h e he)

theorem Below.writes {s : Lsm} {ts : ℕ} (h : s.Below ts) (operations : List BatchOperation) :
    (s.writes ts operations).Below (ts + operations.length) := by
  induction operations generalizing s ts with
  | nil => exact h
  | cons op rest ih =>
      have hrest := ih (h.write op.key op.effect)
      rw [List.length_cons, Nat.add_comm rest.length, ← Nat.add_assoc]
      exact hrest

@[simp] theorem immutableMemtables_writes (s : Lsm) (ts : ℕ) (operations : List BatchOperation) :
    (s.writes ts operations).immutableMemtables = s.immutableMemtables := by
  rw [writes_eq]

@[simp] theorem levels_writes (s : Lsm) (ts : ℕ) (operations : List BatchOperation) :
    (s.writes ts operations).levels = s.levels := by
  rw [writes_eq]

@[simp] theorem nextTs_writes (s : Lsm) (ts : ℕ) (operations : List BatchOperation) :
    (s.writes ts operations).nextTs = s.nextTs := by
  rw [writes_eq]

/-! ## A rotation -/

theorem findSome?_congr {α β : Type} {f g : α → Option β} {l : List α}
    (h : ∀ a ∈ l, f a = g a) : l.findSome? f = l.findSome? g := by
  induction l with
  | nil => rfl
  | cons a rest ih =>
      rw [List.findSome?_cons, List.findSome?_cons, h a (List.mem_cons_self ..),
        ih fun a' h' => h a' (List.mem_cons_of_mem _ h')]

theorem probe_push (levels : ℕ → List SSTable) (sst : SSTable) (key : Bytes) :
    probe (Function.update levels 0 (levels 0 ++ [sst])) key =
      (sst.get key).or (probe levels key) := by
  have hrange : List.range 7 = 0 :: List.range' 1 6 := rfl
  have hdeeper : ∀ level ∈ List.range' 1 6,
      (Function.update levels 0 (levels 0 ++ [sst]) level).reverse.findSome? (fun t => t.get key) =
        (levels level).reverse.findSome? fun t => t.get key := by
    intro level hlevel
    have hne : level ≠ 0 := by
      have := (List.mem_range'_1.mp hlevel).1
      omega
    rw [Function.update_of_ne hne]
  unfold probe
  rw [hrange, List.findSome?_cons, List.findSome?_cons, Function.update_self,
    List.reverse_append, List.reverse_singleton, List.singleton_append, List.findSome?_cons]
  rw [findSome?_congr hdeeper]
  cases sst.get key <;> rfl

/-- The entries a flush writes, in key order. -/
theorem holds_nextTable (s : Lsm) :
    s.nextTable.Holds (s.memtable.iter.map fun e => (e.1.data, e.2)) :=
  SSTableBuilder.holds_build _ _ _

theorem flushed_sorted (m : MemTable) :
    (m.iter.map fun e => (e.1.data, e.2)).Pairwise fun a b => a.1 ≤ b.1 := by
  rw [List.pairwise_map]
  exact m.map.sorted.imp fun hlt => Key.data_le_of_le hlt.le

/-- A table just flushed answers with the newest version, a tombstone being no answer. -/
theorem get_nextTable {s : Lsm} {key : Bytes} (hunsplit : s.nextTable.Unsplit key) :
    s.nextTable.get key = (s.memtable.newest key).join := by
  rw [(holds_nextTable s).get_eq (flushed_sorted s.memtable) hunsplit, MemTable.newest,
    SortedMap.firstWhere, List.find?_map]
  change ((s.memtable.iter.find? fun e => decide (e.1.data = key)).map
      fun e => (e.1.data, e.2)).bind Prod.snd =
    ((s.memtable.iter.find? fun e => decide (e.1.data = key)).map Prod.snd).join
  cases s.memtable.iter.find? fun e => decide (e.1.data = key) <;> rfl

/-- Flushing the memtable leaves the newest value of the key as it is: the versions of
the key are not cut by a block boundary, and its newest version is not a tombstone
hiding a value in the tables. -/
structure FlushSafe (s : Lsm) (key : Bytes) : Prop where
  unsplit : s.nextTable.Unsplit key
  not_hiding : s.memtable.newest key = some none → probe s.levels key = none

instance (s : Lsm) (key : Bytes) : Decidable (s.FlushSafe key) :=
  decidable_of_iff (s.nextTable.Unsplit key ∧
    (s.memtable.newest key = some none → probe s.levels key = none))
    ⟨fun h => ⟨h.1, h.2⟩, fun h => ⟨h.1, h.2⟩⟩

@[simp] theorem memtable_rotate (s : Lsm) : s.rotate.memtable = MemTable.new := rfl

@[simp] theorem immutableMemtables_rotate (s : Lsm) :
    s.rotate.immutableMemtables = s.immutableMemtables := rfl

@[simp] theorem nextTs_rotate (s : Lsm) : s.rotate.nextTs = s.nextTs := rfl

theorem levels_rotate (s : Lsm) :
    s.rotate.levels = Function.update s.levels 0 (s.levels 0 ++ [s.nextTable]) := rfl

theorem probe_rotate (s : Lsm) (key : Bytes) :
    probe s.rotate.levels key = (s.nextTable.get key).or (probe s.levels key) :=
  probe_push s.levels s.nextTable key

/-- After a rotation only the tables are left to read. -/
theorem newest_rotate {s : Lsm} (himm : s.immutableMemtables = []) {key : Bytes}
    (hsafe : s.FlushSafe key) : s.rotate.newest key = s.newest key := by
  have himm' : s.rotate.immutableMemtables = [] := himm
  rw [newest_eq himm', memtable_rotate, MemTable.newest_new, probe_rotate,
    get_nextTable hsafe.unsplit, newest_eq himm]
  cases hnewest : s.memtable.newest key with
  | none => rfl
  | some effect =>
      cases effect with
      | some value => rfl
      | none => exact hsafe.not_hiding hnewest

/-! ## Ending a session -/

/-- The directory that a process leaves behind when the first `survive` records of its
log buffer have reached the file.  Closing the database lets all of them through. -/
def endSession (s : Lsm) (survive : ℕ) : Dir :=
  let file := (s.dir.wals s.wal.id).getD [] ++ s.wal.pending.take survive
  { s.dir with wals := Function.update s.dir.wals s.wal.id (some file) }

end Lsm

/-- What can happen to a database over several sessions. -/
inductive SessionOp where
  | op (op : Op)
  | sync
  | reopen (survive memtableSize : ℕ)

namespace Lsm

/-- An operation, a sync, or the end of a session and the next one.  The compaction thread of the
session comes in with `ThreadedLsm`. -/
def sessionStep (s : Lsm) : SessionOp → Lsm
  | .op op => s.step op
  | .sync => (exec (sync noFaults) s).2
  | .reopen survive memtableSize => openDir memtableSize (s.endSession survive)

/-- The states a database gets into, over any number of sessions in one directory. -/
def Reachable (s : Lsm) : Prop :=
  ∃ memtableSize history, s = Run.run sessionStep (openDir memtableSize Dir.empty) history

/-- A property of fresh directories that the operations, a sync and a reopening keep. -/
theorem Reachable.induct (Inv : Lsm → Prop)
    (hfresh : ∀ memtableSize, Inv (openDir memtableSize Dir.empty))
    (hstep : ∀ s op, Inv s → Inv (sessionStep s op)) {s : Lsm} (h : s.Reachable) : Inv s := by
  obtain ⟨memtableSize, history, rfl⟩ := h
  exact Run.invariant Inv hstep (hfresh memtableSize) history

theorem immutableMemtables_step (s : Lsm) (op : Op) :
    (s.step op).immutableMemtables = s.immutableMemtables := by
  rw [step_eq, apply_ite Lsm.immutableMemtables, immutableMemtables_rotate, ite_self, logged,
    immutableMemtables_writes]
  rfl

/-- A flush finishes before the next operation begins. -/
theorem Reachable.immutableMemtables {s : Lsm} (h : s.Reachable) : s.immutableMemtables = [] := by
  apply h.induct fun s => s.immutableMemtables = []
  · intro memtableSize
    rfl
  · intro s op hs
    cases op with
    | op op => exact (immutableMemtables_step s op).trans hs
    | sync => exact hs
    | reopen survive memtableSize => rfl

end Lsm
end Crabstash

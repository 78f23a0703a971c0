import Crabstash.Common.Error
import Crabstash.Storage.Manifest
import Crabstash.Storage.SSTable
import Crabstash.Storage.Wal

/-!
# The log-structured merge tree

`Lsm` of `lsm.rs` together with the directory it works on.  A write draws a
timestamp, goes into the write-ahead log and into the memtable, and a memtable
that has reached its size is rotated: the log is synced, a new log is begun, and
the memtable becomes the last table of level 0.

The methods are actions that may be struck by input/output faults at any of
their calls.  Where no fault strikes, each has a plain function on states that
says what it does: `write` (a record logged and inserted), `rotate`, and the
operations put together from them in `exec_put`, `exec_delete` and
`exec_writeBatch`.

A thread draws its timestamp before it takes the write lock, so `put`, `delete` and
`write_batch` are given in two parts, of which `putAt`, `deleteAt` and `writeBatchAt`
are the second.
The compaction thread works on the directory on its own; a rotation only wakes
it, and that is not part of this state.
-/

namespace Crabstash

open Crabstash.Action

/-- The calls of `Lsm` and `Compactor` to the file system that can fail. -/
inductive IoCall where
  | walAppend
  | walSync
  | addWalWrite
  | addWalSync
  | walCreate
  | sstBuild
  | addSstWrite
  | addSstSync
  | sstOpen
  | removeSstWrite
  | removeSstSync
  deriving DecidableEq, Repr

/-- The files of a directory, by number. -/
structure Dir where
  manifest : Option (List ManifestLine)
  wals : ℕ → Option (List WalRecord)
  ssts : ℕ → Option SSTable

/-- A directory in which no database has been opened. -/
def Dir.empty : Dir := { manifest := none, wals := fun _ => none, ssts := fun _ => none }

/-- One operation of a batch. -/
inductive BatchOperation where
  | put (key value : Bytes)
  | delete (key : Bytes)
  deriving DecidableEq, Repr

namespace BatchOperation

/-- The key that the operation writes. -/
def key : BatchOperation → Bytes
  | put key _ => key
  | delete key => key

/-- What the operation stores for its key: a value or a tombstone. -/
def effect : BatchOperation → Option Bytes
  | put _ value => some value
  | delete _ => none

end BatchOperation

/-- `LsmInner`, the timestamp counter, the one option that matters for what is
stored, and the directory. -/
structure Lsm where
  memtable : MemTable
  immutableMemtables : List MemTable
  levels : ℕ → List SSTable
  wal : Wal
  manifest : Manifest
  nextTs : ℕ
  memtableSize : ℕ
  dir : Dir

namespace Lsm

/-! ## Opening -/

/-- The replay loop: the log files `1 .. next_wal_id`, as far as they exist. -/
def recoverMemtable (dir : Dir) (nextWalId : ℕ) : MemTable :=
  (List.range' 1 (nextWalId - 1)).foldl
    (fun memtable walId => memtable.replay ((dir.wals walId).getD [])) MemTable.new

/-- `Lsm::open`.  The log of the new session takes the number after the last one
recorded, and creating it truncates whatever file has that number. -/
def openDir (memtableSize : ℕ) (dir : Dir) : Lsm :=
  let manifest := match dir.manifest with
    | some lines => Manifest.load lines
    | none => Manifest.create
  let dir := { dir with manifest := some (dir.manifest.getD []) }
  let levels := fun level => (manifest.levels level).filterMap dir.ssts
  let wal := Wal.create manifest.nextWalId
  let dir := { dir with wals := Function.update dir.wals wal.id (some []) }
  { memtable := recoverMemtable dir manifest.nextWalId
    immutableMemtables := []
    levels, wal, manifest
    nextTs := 1
    memtableSize, dir }

/-! ## Reading -/

/-- The loops over levels and tables in `get_at_ts`. -/
def probe (levels : ℕ → List SSTable) (key : Bytes) : Option Bytes :=
  (List.range 7).findSome? fun level => (levels level).reverse.findSome? fun sst => sst.get key

/-- `get_at_ts`: the memtable, the immutable memtables from the newest, then the tables. -/
def getAtTs (s : Lsm) (key : Bytes) (ts : ℕ) : Option Bytes :=
  match s.memtable.getAtTs key ts with
  | some value => value
  | none =>
      match s.immutableMemtables.reverse.findSome? fun imm => imm.getAtTs key ts with
      | some value => value
      | none => probe s.levels key

/-- `get`: the counter itself is the limit, so every version is below it. -/
def get (s : Lsm) (key : Bytes) : Option Bytes := s.getAtTs key s.nextTs

/-- `current_ts`: the timestamp that the next write will draw. -/
def currentTs (s : Lsm) : ℕ := s.nextTs

/-! ## Writing -/

/-- The buffer of the log goes into its file. -/
def flushWal (s : Lsm) : Lsm :=
  let file := (s.dir.wals s.wal.id).getD [] ++ s.wal.pending
  { s with
    wal := { s.wal with pending := [] }
    dir := { s.dir with wals := Function.update s.dir.wals s.wal.id (some file) } }

/-- A line at the end of the manifest file. -/
def logLine (s : Lsm) (line : ManifestLine) : Lsm :=
  { s with dir := { s.dir with manifest := s.dir.manifest.map (· ++ [line]) } }

/-- The next timestamp; the counter moves on by `count`. -/
def fetchAddTs (count : ℕ) : Action Lsm ℕ :=
  modifyGet fun s => (s.nextTs, { s with nextTs := s.nextTs + count })

section Faulty

variable (faults : Faults IoCall)

/-- `sync`. -/
def sync : Action Lsm Unit := do
  attempt faults .walSync
  modify flushWal

/-- `manifest.add_wal(id)?`. -/
def addWal (id : ℕ) : Action Lsm Unit := do
  attempt faults .addWalWrite
  modify fun s => s.logLine (.wal id)
  attempt faults .addWalSync
  modify fun s => { s with manifest := s.manifest.applyLine (.wal id) }

/-- `manifest.add_sst(level, id)?`. -/
def addSst (level id : ℕ) : Action Lsm Unit := do
  attempt faults .addSstWrite
  modify fun s => s.logLine (.sst level id)
  attempt faults .addSstSync
  modify fun s => { s with manifest := s.manifest.applyLine (.sst level id) }

/-- `inner.wal = Wal::create(..)?`.  The file is truncated first; the handle that
is replaced has nothing left in its buffer at this point. -/
def createWal (id : ℕ) : Action Lsm Unit := do
  attempt faults .walCreate
  modify fun s =>
    { s with
      wal := Wal.create id
      dir := { s.dir with wals := Function.update s.dir.wals id (some []) } }

/-- The table that flushing a memtable writes: every version, without its timestamp. -/
def flushedTable (sstId : ℕ) (imm : MemTable) : SSTable :=
  SSTableBuilder.build sstId imm.len (imm.iter.map fun e => (e.1.data, e.2))

/-- `flush_immutable`.  `retain` drops the one memtable that is flushed, which is
the one `rotate_memtable` has just pushed. -/
def flushImmutable (imm : MemTable) : Action Lsm Unit := do
  let sstId ← modifyGet fun s =>
    ((s.manifest.allocateSstId).1, { s with manifest := (s.manifest.allocateSstId).2 })
  attempt faults .sstBuild
  let sst := flushedTable sstId imm
  modify fun s =>
    { s with dir := { s.dir with ssts := Function.update s.dir.ssts sstId (some sst) } }
  addSst faults 0 sstId
  attempt faults .sstOpen
  modify fun s =>
    { s with
      levels := Function.update s.levels 0 (s.levels 0 ++ [sst])
      immutableMemtables := s.immutableMemtables.dropLast }

/-- `rotate_memtable`: the memtable is full, gets a new log behind it and is flushed. -/
def rotateMemtable : Action Lsm Unit := do
  let imm := (← MonadState.get).memtable
  modify fun s =>
    { s with
      memtable := MemTable.new
      immutableMemtables := s.immutableMemtables ++ [imm] }
  sync faults
  let walId ← modifyGet fun s =>
    ((s.manifest.allocateWalId).1, { s with manifest := (s.manifest.allocateWalId).2 })
  addWal faults walId
  createWal faults walId
  flushImmutable faults imm

/-- `if memtable.size() >= memtable_size { rotate_memtable()? }`. -/
def rotateIfFull : Action Lsm Unit := do
  let s ← MonadState.get
  if s.memtableSize ≤ s.memtable.size then rotateMemtable faults else pure ()

/-- `put` from the write lock on. -/
def putAt (ts : ℕ) (key value : Bytes) : Action Lsm Unit := do
  attempt faults .walAppend
  modify fun s => { s with wal := s.wal.append (.ofWrite key (some value) ts) }
  modify fun s => { s with memtable := s.memtable.put ⟨key, ts⟩ value }
  rotateIfFull faults

/-- `put`. -/
def put (key value : Bytes) : Action Lsm Unit := do
  let ts ← fetchAddTs 1
  putAt faults ts key value

/-- `delete` from the write lock on.  Unlike `put` it never rotates. -/
def deleteAt (ts : ℕ) (key : Bytes) : Action Lsm Unit := do
  attempt faults .walAppend
  modify fun s => { s with wal := s.wal.append (.ofWrite key none ts) }
  modify fun s => { s with memtable := s.memtable.delete ⟨key, ts⟩ }

/-- `delete`; unlike `put` it does not look at the size of the memtable. -/
def delete (key : Bytes) : Action Lsm Unit := do
  let ts ← fetchAddTs 1
  deleteAt faults ts key

/-- The records of a batch, at consecutive timestamps. -/
def batchRecords (baseTs : ℕ) (operations : List BatchOperation) : List WalRecord :=
  (operations.zipIdx baseTs).map fun (op, ts) => .ofWrite op.key op.effect ts

/-- The insertion loop of `write_batch`. -/
def insertBatch (baseTs : ℕ) (operations : List BatchOperation) (memtable : MemTable) : MemTable :=
  (operations.zipIdx baseTs).foldl (fun memtable (op, ts) =>
    match op with
    | .put key value => memtable.put ⟨key, ts⟩ value
    | .delete key => memtable.delete ⟨key, ts⟩) memtable

/-- `write_batch` from the write lock on. -/
def writeBatchAt (baseTs : ℕ) (operations : List BatchOperation) : Action Lsm Unit := do
  attempt faults .walAppend
  modify fun s => { s with wal := s.wal.appendBatch (batchRecords baseTs operations) }
  modify fun s => { s with memtable := insertBatch baseTs operations s.memtable }
  rotateIfFull faults

/-- `write_batch`: one timestamp for each operation, in order. -/
def writeBatch (operations : List BatchOperation) : Action Lsm Unit :=
  if operations.isEmpty then pure ()
  else do
    let baseTs ← fetchAddTs operations.length
    writeBatchAt faults baseTs operations

end Faulty

/-! ## What the methods do when no call fails -/

/-- A record logged and inserted. -/
def write (s : Lsm) (key : Bytes) (value : Option Bytes) (ts : ℕ) : Lsm :=
  { s with
    wal := s.wal.append (.ofWrite key value ts)
    memtable := s.memtable.record ⟨key, ts⟩ value }

/-- The records of a batch logged and inserted. -/
def writes (s : Lsm) (ts : ℕ) : List BatchOperation → Lsm
  | [] => s
  | op :: rest => writes (s.write op.key op.effect ts) (ts + 1) rest

/-- The counter moved on. -/
def advance (s : Lsm) (count : ℕ) : Lsm := { s with nextTs := s.nextTs + count }

/-- A new log, recorded in the manifest. -/
def switchWal (s : Lsm) : Lsm :=
  { s with
    wal := Wal.create s.manifest.nextWalId
    manifest := (s.manifest.allocateWalId).2.applyLine (.wal s.manifest.nextWalId)
    dir :=
      { (s.logLine (.wal s.manifest.nextWalId)).dir with
        wals := Function.update s.dir.wals s.manifest.nextWalId (some []) } }

/-- The table the next flush of this state would write. -/
def nextTable (s : Lsm) : SSTable := flushedTable s.manifest.nextSstId s.memtable

/-- The memtable turned into the last table of level 0. -/
def flushMemtable (s : Lsm) : Lsm :=
  let sstId := s.manifest.nextSstId
  { s with
    memtable := MemTable.new
    levels := Function.update s.levels 0 (s.levels 0 ++ [s.nextTable])
    manifest := (s.manifest.allocateSstId).2.applyLine (.sst 0 sstId)
    dir :=
      { (s.logLine (.sst 0 sstId)).dir with
        ssts := Function.update s.dir.ssts sstId (some s.nextTable) } }

/-- A rotation: sync, a new log, the memtable flushed. -/
def rotate (s : Lsm) : Lsm := s.flushWal.switchWal.flushMemtable

/-- The memtable has reached its size. -/
def full (s : Lsm) : Prop := s.memtableSize ≤ s.memtable.size

instance (s : Lsm) : Decidable s.full := inferInstanceAs (Decidable (_ ≤ _))

/-- A rotation if the memtable has reached its size. -/
def settle (s : Lsm) : Lsm := if s.full then s.rotate else s

theorem exec_sync (s : Lsm) : exec (sync noFaults) s = (.ok (), s.flushWal) := rfl

theorem exec_rotateMemtable (s : Lsm) :
    exec (rotateMemtable noFaults) s = (.ok (), s.rotate) := by
  have hdrop : (s.immutableMemtables ++ [s.memtable]).dropLast = s.immutableMemtables :=
    List.dropLast_concat
  calc exec (rotateMemtable noFaults) s
      = (.ok (), { s.rotate with
          immutableMemtables := (s.immutableMemtables ++ [s.memtable]).dropLast }) := rfl
    _ = (.ok (), s.rotate) := by rw [hdrop]; rfl

theorem exec_rotateIfFull (s : Lsm) :
    exec (rotateIfFull noFaults) s = (.ok (), s.settle) := by
  have hcases : exec (rotateIfFull noFaults) s =
      exec (if s.memtableSize ≤ s.memtable.size then rotateMemtable noFaults else pure ()) s := rfl
  rw [hcases]
  by_cases hfull : s.full
  · rw [settle, if_pos hfull, ← exec_rotateMemtable]
    exact congrArg (exec · s) (if_pos hfull)
  · rw [settle, if_neg hfull]
    exact congrArg (exec · s) (if_neg hfull)

theorem exec_putAt (s : Lsm) (ts : ℕ) (key value : Bytes) :
    exec (putAt noFaults ts key value) s = (.ok (), (s.write key (some value) ts).settle) :=
  exec_rotateIfFull (s.write key (some value) ts)

theorem exec_put (s : Lsm) (key value : Bytes) :
    exec (put noFaults key value) s =
      (.ok (), ((s.advance 1).write key (some value) s.nextTs).settle) :=
  exec_putAt (s.advance 1) s.nextTs key value

theorem exec_deleteAt (s : Lsm) (ts : ℕ) (key : Bytes) :
    exec (deleteAt noFaults ts key) s = (.ok (), s.write key none ts) := rfl

theorem exec_delete (s : Lsm) (key : Bytes) :
    exec (delete noFaults key) s = (.ok (), (s.advance 1).write key none s.nextTs) := rfl

theorem writes_eq (s : Lsm) (ts : ℕ) (operations : List BatchOperation) :
    s.writes ts operations =
      { s with
        wal := s.wal.appendBatch (batchRecords ts operations)
        memtable := insertBatch ts operations s.memtable } := by
  induction operations generalizing s ts with
  | nil => simp [writes, batchRecords, insertBatch, Wal.appendBatch]
  | cons op rest ih =>
      have hrecords : batchRecords ts (op :: rest) =
          .ofWrite op.key op.effect ts :: batchRecords (ts + 1) rest := by
        simp [batchRecords, List.zipIdx_cons]
      have hinsert : insertBatch ts (op :: rest) s.memtable =
          insertBatch (ts + 1) rest (s.memtable.record ⟨op.key, ts⟩ op.effect) := by
        cases op <;> rfl
      rw [writes, ih, hrecords, hinsert, Wal.appendBatch_cons]
      rfl

theorem exec_writeBatchAt (s : Lsm) (ts : ℕ) (operations : List BatchOperation) :
    exec (writeBatchAt noFaults ts operations) s = (.ok (), (s.writes ts operations).settle) := by
  rw [writes_eq]
  exact exec_rotateIfFull _

theorem exec_writeBatch (s : Lsm) (operations : List BatchOperation) :
    exec (writeBatch noFaults operations) s =
      (.ok (), if operations.isEmpty then s
        else ((s.advance operations.length).writes s.nextTs operations).settle) := by
  unfold writeBatch
  split
  · rfl
  · exact exec_writeBatchAt (s.advance operations.length) s.nextTs operations

end Lsm
end Crabstash

import Crabstash.Storage.ManifestReplay
import Crabstash.Storage.Session
import Crabstash.Storage.SyncModes
import Crabstash.Storage.TableReads

/-!
# The tree on its files

`Lsm` again, with its files as they are on the disk: the manifest is text, a log is what the
write buffer has let through, a table is the file that `SSTableBuilder` has written and
`SSTable::open` has taken apart.  Opening a database reads all of them, and may fail at each.

No call of the file system fails here.  What can fail, and panic, is the reading of what is in
the files.  A process that ends leaves the manifest and the tables as they are, since these are
written through; of the write buffer of the log any first part may have come into the file, and a
record can be cut anywhere.

The compaction thread is not part of this; what it does to the tables is in `Database`.
-/

namespace Crabstash

/-- `crc32fast` and `lz4_flex`, as the logs and the tables use them. -/
structure Codecs where
  wal : WalCodec
  table : TableCodec

/-- Both codecs give back what was compressed. -/
structure Codecs.Inverts (codecs : Codecs) : Prop where
  wal : codecs.wal.Inverts
  table : codecs.table.Inverts

/-- How opening a database or reading from it ends early; `load` can only panic. -/
inductive DiskFailure where
  | manifest
  | table (e : TableFailure)
  | wal (e : WalFailure)
  deriving DecidableEq

/-- `WalOptions::default`. -/
def WalOptions.default : WalOptions :=
  { syncMode := .noSync, enableCompression := false, groupCommitSizeBytes := 0 }

/-- The files of a directory, by number. -/
structure DiskDir where
  manifest : Option (List Char)
  wals : ℕ → Option Bytes
  ssts : ℕ → Option Bytes

/-- A directory in which no database has been opened. -/
def DiskDir.empty : DiskDir := { manifest := none, wals := fun _ => none, ssts := fun _ => none }

/-- `LsmInner` with its open files, the timestamp counter and two of the options.  A log is the
number of its file and the write buffer. -/
structure DiskLsm where
  memtable : MemTable
  immutableMemtables : List MemTable
  levels : ℕ → List TableFile
  walId : ℕ
  walBuffer : Bytes
  manifest : ManifestSession
  nextTs : ℕ
  memtableSize : ℕ
  compression : CompressionType
  wals : ℕ → Option Bytes
  ssts : ℕ → Option Bytes

namespace DiskLsm

variable (codecs : Codecs)

/-! ## Opening -/

/-- The tables of a level that have a file. -/
def openLevel (ssts : ℕ → Option Bytes) : List ℕ → Except DiskFailure (List TableFile)
  | [] => .ok []
  | id :: rest =>
      match ssts id with
      | none => openLevel ssts rest
      | some file =>
          match TableFile.openFile id file with
          | .error e => .error (.table e)
          | .ok sst => (openLevel ssts rest).map (sst :: ·)

/-- The loop over the levels of the manifest. -/
def openLevels (ssts : ℕ → Option Bytes) :
    List (Σ _ : ℕ, LevelMeta) → Except DiskFailure (ℕ → List TableFile)
  | [] => .ok fun _ => []
  | ⟨level, levelMeta⟩ :: rest =>
      match openLevel ssts levelMeta.sstIds with
      | .error e => .error e
      | .ok tables => (openLevels ssts rest).map fun levels => Function.update levels level tables

/-- The replay loop over these logs, as far as they exist. -/
def replayLogs (wals : ℕ → Option Bytes) : List ℕ → MemTable → Except DiskFailure MemTable
  | [], memtable => .ok memtable
  | walId :: rest, memtable =>
      match wals walId with
      | none => replayLogs wals rest memtable
      | some file =>
          match codecs.wal.recover file with
          | .error e => .error (.wal e)
          | .ok records => replayLogs wals rest (memtable.replay records)

/-- `Manifest::open`, or `Manifest::create` where there is no file. -/
def openManifest : Option (List Char) → Except DiskFailure ManifestSession
  | none => .ok ManifestSession.create
  | some file =>
      match LiveManifest.openFile file with
      | none => .error .manifest
      | some manifest => .ok { file, mode := .append, manifest }

/-- `Lsm::open`. -/
def openDir (memtableSize : ℕ) (compression : CompressionType) (dir : DiskDir) :
    Except DiskFailure DiskLsm :=
  match openManifest dir.manifest with
  | .error e => .error e
  | .ok manifest =>
      match openLevels dir.ssts manifest.manifest.levels.entries with
      | .error e => .error e
      | .ok levels =>
          let walId := manifest.manifest.nextWalId
          -- the file is truncated before the older logs are read
          let wals := Function.update dir.wals walId (some [])
          match replayLogs codecs wals (List.range' 1 (walId - 1)) MemTable.new with
          | .error e => .error e
          | .ok memtable =>
              .ok
                { memtable, immutableMemtables := [], levels, walId, walBuffer := [], manifest
                  nextTs := 1, memtableSize, compression, wals, ssts := dir.ssts }

/-! ## Reading -/

/-- The loop over the tables in `get_at_ts`. -/
def probe (caches : (t : TableFile) → BlockCache codecs.table t) (key : Bytes) :
    List TableFile → Except DiskFailure (Option Bytes)
  | [] => .ok none
  | sst :: rest =>
      match sst.get codecs.table (caches sst) key with
      | .error e => .error (.table e)
      | .ok (some value) => .ok (some value)
      | .ok none => probe caches key rest

/-- `get_at_ts`, with whatever the block cache has of each table. -/
def getAtTs (caches : (t : TableFile) → BlockCache codecs.table t) (d : DiskLsm) (key : Bytes)
    (ts : ℕ) : Except DiskFailure (Option Bytes) :=
  match d.memtable.getAtTs key ts with
  | some value => .ok value
  | none =>
      match d.immutableMemtables.reverse.findSome? fun imm => imm.getAtTs key ts with
      | some value => .ok value
      | none =>
          probe codecs caches key ((List.range 7).flatMap fun level => (d.levels level).reverse)

/-! ## Writing -/

/-- `wal.append` and `wal.append_batch`: the records go into the write buffer. -/
def appendRecords (d : DiskLsm) (records : List WalRecord) : DiskLsm :=
  { d with walBuffer := d.walBuffer ++ codecs.wal.encoded WalOptions.default records }

/-- The first bytes of the write buffer come into the file. -/
def spill (d : DiskLsm) (n : ℕ) : DiskLsm :=
  { d with
    walBuffer := d.walBuffer.drop n
    wals :=
      Function.update d.wals d.walId (some ((d.wals d.walId).getD [] ++ d.walBuffer.take n)) }

/-- `sync`. -/
def sync (d : DiskLsm) : DiskLsm := d.spill d.walBuffer.length

/-- `flush_immutable`.  The table is built, listed, and opened again. -/
def flushImmutable (d : DiskLsm) (imm : MemTable) : Except DiskFailure DiskLsm :=
  let sstId := d.manifest.manifest.nextSstId
  let file := TableFile.Builder.build codecs.table sstId imm.len d.compression
    (imm.iter.map fun e => (e.1.data, e.2))
  match TableFile.openFile sstId file with
  | .error e => .error (.table e)
  | .ok sst =>
      .ok
        { d with
          immutableMemtables := d.immutableMemtables.dropLast
          levels := Function.update d.levels 0 (d.levels 0 ++ [sst])
          manifest := (d.manifest.step .allocateSstId).addSst 0 sstId
          ssts := Function.update d.ssts sstId (some file) }

/-- A new log, recorded in the manifest. -/
def switchWal (d : DiskLsm) : DiskLsm :=
  let walId := d.manifest.manifest.nextWalId
  { d with
    manifest := (d.manifest.step .allocateWalId).addWal walId
    walId
    walBuffer := []
    wals := Function.update d.wals walId (some []) }

/-- `rotate_memtable`. -/
def rotateMemtable (d : DiskLsm) : Except DiskFailure DiskLsm :=
  let imm := d.memtable
  let d :=
    { d with memtable := MemTable.new, immutableMemtables := d.immutableMemtables ++ [imm] }
  d.sync.switchWal.flushImmutable codecs imm

/-- `if inner.memtable.size() >= memtable_size { rotate }`, the end of `put` and of
`write_batch`. -/
def rotateIfFull (d : DiskLsm) : Except DiskFailure DiskLsm :=
  if d.memtableSize ≤ d.memtable.size then d.rotateMemtable codecs else .ok d

/-- `put`. -/
def put (d : DiskLsm) (key value : Bytes) : Except DiskFailure DiskLsm :=
  let ts := d.nextTs
  let d := { d with nextTs := ts + 1 }
  let d := d.appendRecords codecs [.ofWrite key (some value) ts]
  rotateIfFull codecs { d with memtable := d.memtable.put ⟨key, ts⟩ value }

/-- `delete`, without a rotation. -/
def delete (d : DiskLsm) (key : Bytes) : DiskLsm :=
  let ts := d.nextTs
  let d := { d with nextTs := ts + 1 }
  let d := d.appendRecords codecs [.ofWrite key none ts]
  { d with memtable := d.memtable.delete ⟨key, ts⟩ }

/-- `write_batch`. -/
def writeBatch (d : DiskLsm) (operations : List BatchOperation) : Except DiskFailure DiskLsm :=
  if operations.isEmpty then .ok d
  else
    let baseTs := d.nextTs
    let d := { d with nextTs := baseTs + operations.length }
    let d := d.appendRecords codecs (Lsm.batchRecords baseTs operations)
    rotateIfFull codecs { d with memtable := Lsm.insertBatch baseTs operations d.memtable }

/-- The directory that a process leaves behind when the first `n` bytes of the write buffer have
reached the file.  Closing the database lets all of them through. -/
def endSession (d : DiskLsm) (n : ℕ) : DiskDir :=
  { manifest := some d.manifest.file, wals := (d.spill n).wals, ssts := d.ssts }

end DiskLsm

/-! ## Runs -/

/-- What can happen to a database over several sessions. -/
inductive DiskStep where
  | op (op : Op)
  | sync
  | spill (n : ℕ)
  | reopen (survive memtableSize : ℕ) (compression : CompressionType)

namespace DiskLsm

variable (codecs : Codecs)

/-- An operation, a sync, bytes of the log that reach the file, or the end of a session and the
next one. -/
def act (d : DiskLsm) : DiskStep → Except DiskFailure DiskLsm
  | .op (.put key value) => d.put codecs key value
  | .op (.delete key) => .ok (d.delete codecs key)
  | .op (.writeBatch operations) => d.writeBatch codecs operations
  | .sync => .ok d.sync
  | .spill n => .ok (d.spill n)
  | .reopen survive memtableSize compression =>
      openDir codecs memtableSize compression (d.endSession survive)

/-- Nothing more happens to a database that could not be opened. -/
def step (s : Except DiskFailure DiskLsm) (action : DiskStep) : Except DiskFailure DiskLsm :=
  match s with
  | .error e => .error e
  | .ok d => d.act codecs action

/-- The state of an operation after it has logged and inserted its writes. -/
def logged (d : DiskLsm) (op : Op) : DiskLsm :=
  { d with
    nextTs := d.nextTs + op.operations.length
    walBuffer := d.walBuffer ++
      codecs.wal.encoded WalOptions.default (Lsm.batchRecords d.nextTs op.operations)
    memtable := Lsm.insertBatch d.nextTs op.operations d.memtable }

theorem act_op (d : DiskLsm) (op : Op) :
    d.act codecs (.op op) =
      if op.checksSize = true then rotateIfFull codecs (d.logged codecs op)
      else .ok (d.logged codecs op) := by
  cases op with
  | put key value => rfl
  | delete key => rfl
  | writeBatch operations =>
      cases operations with
      | nil =>
          have hnone : d.logged codecs (.writeBatch []) = d := by
            simp [logged, Lsm.batchRecords, Lsm.insertBatch, WalCodec.encoded, Op.operations]
          show Except.ok d = Except.ok (d.logged codecs (.writeBatch []))
          rw [hnone]
      | cons op rest => rfl

end DiskLsm
end Crabstash

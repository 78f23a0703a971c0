import Crabstash.Foundations.Groups
import Crabstash.Foundations.HashMap
import Crabstash.Foundations.Text
import Crabstash.Storage.WalFormat
import Mathlib.Data.List.Sort

/-!
# The log in segments

`WalManager`: the log goes on in a new file whenever the current one is full, and old files
are moved to another directory.  Any number of threads append; a call that finds room
appends under the read lock, and one that finds none starts a new segment, moves the old
ones away without a lock, and appends under the write lock.  A call is cut into steps
(`AppendPc`) where it takes or releases a lock and where it looks at a directory.

A directory is a map from the numbers of its segments to its files; the name of a segment
is read as the number it was made from (`parseSegmentName_segmentName`).  A file that is
open stays the same file when its name moves to another directory.  What a writer has
buffered may come into the file at any time (`spill`).

Numbers are machine words where the code adds to them or subtracts from them: a difference
that is negative is a very large number.
-/

namespace Crabstash

/-! ## Names of segments -/

namespace WalManager

/-- `WAL_SEGMENT_PREFIX`. -/
def walSegmentPrefix : List Char := "wal_".toList

/-- `WAL_SEGMENT_EXT`. -/
def walSegmentExt : List Char := ".log".toList

/-- The last part of `segment_path`. -/
def segmentName (segmentId : ℕ) : List Char :=
  walSegmentPrefix ++ (Text.padded 8 segmentId ++ walSegmentExt)

/-- `parse_segment_name`; the number has to fit into a `u64`. -/
def parseSegmentName (name : List Char) : Option ℕ :=
  if walSegmentPrefix <+: name ∧ walSegmentExt <:+ name then
    let rest := name.drop walSegmentPrefix.length
    if walSegmentExt <:+ rest then
      (Text.parseDecimal (rest.take (rest.length - walSegmentExt.length))).filter (· < 2 ^ 64)
    else none
  else none

theorem parseSegmentName_segmentName {segmentId : ℕ} (h : segmentId < 2 ^ 64) :
    parseSegmentName (segmentName segmentId) = some segmentId := by
  have hrest : (segmentName segmentId).drop walSegmentPrefix.length =
      Text.padded 8 segmentId ++ walSegmentExt := List.drop_left
  have hfront : walSegmentPrefix <+: segmentName segmentId := List.prefix_append _ _
  have hsuffix : walSegmentExt <:+ Text.padded 8 segmentId ++ walSegmentExt := List.suffix_append _ _
  have hname : walSegmentExt <:+ segmentName segmentId :=
    hsuffix.trans (List.suffix_append _ _)
  have htake : (Text.padded 8 segmentId ++ walSegmentExt).take
      ((Text.padded 8 segmentId ++ walSegmentExt).length - walSegmentExt.length) =
        Text.padded 8 segmentId := by
    rw [List.length_append, Nat.add_sub_cancel]
    exact List.take_left
  unfold parseSegmentName
  rw [if_pos ⟨hfront, hname⟩]
  simp only [hrest]
  rw [if_pos hsuffix, htake, Text.parseDecimal_padded, Option.filter_some, if_pos (by simpa using h)]

end WalManager

/-! ## Files -/

/-- The directories with their names, and what the files hold. -/
structure SegmentFiles where
  wal : HashMap ℕ ℕ
  archive : HashMap ℕ ℕ
  contents : HashMap ℕ Bytes
  nextFile : ℕ

namespace SegmentFiles

/-- No directory holds anything. -/
def empty : SegmentFiles := { wal := ∅, archive := ∅, contents := ∅, nextFile := 0 }

/-- The bytes of a file; of one that is not there, none. -/
def read (d : SegmentFiles) (file : ℕ) : Bytes := (d.contents.lookup file).getD []

/-- Bytes go to the end of a file. -/
def write (d : SegmentFiles) (file : ℕ) (bytes : Bytes) : SegmentFiles :=
  { d with contents := d.contents.insert file (d.read file ++ bytes) }

/-- A new empty file under the number of a segment in the directory of the log. -/
def newFile (d : SegmentFiles) (segmentId : ℕ) : SegmentFiles :=
  { d with
    wal := d.wal.insert segmentId d.nextFile
    contents := d.contents.insert d.nextFile []
    nextFile := d.nextFile + 1 }

/-- Opening a file to append to it, which creates one where there is none. -/
def openAppend (d : SegmentFiles) (segmentId : ℕ) : ℕ × SegmentFiles :=
  match d.wal.lookup segmentId with
  | some file => (file, d)
  | none => (d.nextFile, d.newFile segmentId)

/-- Opening a file with what is in it thrown away. -/
def openTruncate (d : SegmentFiles) (segmentId : ℕ) : ℕ × SegmentFiles :=
  match d.wal.lookup segmentId with
  | some file => (file, { d with contents := d.contents.insert file [] })
  | none => (d.nextFile, d.newFile segmentId)

/-- The name moves to the archive. -/
def rename (d : SegmentFiles) (segmentId file : ℕ) : SegmentFiles :=
  { d with wal := d.wal.erase segmentId, archive := d.archive.insert segmentId file }

/-- `fs::metadata(path).len()`, and 0 where that fails. -/
def metadataLen (d : SegmentFiles) (segmentId : ℕ) : ℕ :=
  match d.wal.lookup segmentId with
  | some file => (d.read file).length
  | none => 0

end SegmentFiles

/-! ## One segment -/

/-- When `maybe_sync_internal` writes the buffer out. -/
inductive SyncMode where
  | noSync
  | sync
  | dataSync
  | groupSync
  deriving DecidableEq, Repr

/-- The part of `WalOptions` that an append reads. -/
structure WalOptions where
  syncMode : SyncMode
  enableCompression : Bool
  groupCommitSizeBytes : ℕ
  deriving DecidableEq, Repr

/-- A `Wal` that is open: its file and what is buffered for it. -/
structure SegmentWal where
  file : ℕ
  buffer : Bytes
  pendingBytes : ℕ
  deriving DecidableEq, Repr

namespace SegmentWal

/-- `Wal::new_with_file`: nothing is buffered. -/
def newWithFile (file : ℕ) : SegmentWal := { file, buffer := [], pendingBytes := 0 }

/-- The writes of one record to the `BufWriter`. -/
def writeRecord (codec : WalCodec) (options : WalOptions) (wal : SegmentWal) (record : WalRecord) :
    SegmentWal :=
  let buf := codec.encodeRecord options.enableCompression record
  { wal with
    buffer := wal.buffer ++ codec.frame buf
    pendingBytes := wal.pendingBytes + (8 + buf.length) }

/-- The first bytes of the buffer come into the file. -/
def spill (d : SegmentFiles) (wal : SegmentWal) (count : ℕ) : SegmentFiles × SegmentWal :=
  (d.write wal.file (wal.buffer.take count), { wal with buffer := wal.buffer.drop count })

/-- `sync`: the whole buffer comes into the file. -/
def sync (d : SegmentFiles) (wal : SegmentWal) : SegmentFiles × SegmentWal :=
  (d.write wal.file wal.buffer, { wal with buffer := [], pendingBytes := 0 })

/-- `maybe_sync_internal`. -/
def maybeSyncInternal (options : WalOptions) (d : SegmentFiles) (wal : SegmentWal) :
    SegmentFiles × SegmentWal :=
  match options.syncMode with
  | .noSync => (d, wal)
  | .sync => sync d wal
  | .dataSync => sync d wal
  | .groupSync => if options.groupCommitSizeBytes ≤ wal.pendingBytes then sync d wal else (d, wal)

/-- `append` of one record, or `append_batch`. -/
def append (codec : WalCodec) (options : WalOptions) (d : SegmentFiles) (wal : SegmentWal)
    (records : List WalRecord) : SegmentFiles × SegmentWal :=
  maybeSyncInternal options d (records.foldl (writeRecord codec options) wal)

end SegmentWal

/-! ## The manager -/

/-- `WalManagerOptions`; of the archive only whether there is one. -/
structure WalManagerOptions where
  walOptions : WalOptions
  segmentSizeBytes : ℕ
  archiveDir : Bool
  minSegmentsToKeep : ℕ
  deriving DecidableEq, Repr

/-- What the lock of the manager guards. -/
structure WalManagerInner where
  currentWal : SegmentWal
  currentSegment : ℕ
  currentSize : ℕ
  deriving DecidableEq, Repr

/-- The manager with what it keeps outside of the lock. -/
structure WalManager where
  inner : WalManagerInner
  options : WalManagerOptions
  firstSegment : ℕ
  deriving DecidableEq, Repr

namespace WalManager

/-- `find_latest_segment`: the largest and the smallest number. -/
def findLatestSegment (segments : List ℕ) : ℕ × ℕ :=
  if segments = [] then (1, 1) else (segments.foldl max 0, segments.foldl min (2 ^ 64 - 1))

/-- `open`: the latest segment goes on, and its length in the directory is the size counted so
far. -/
def «open» (options : WalManagerOptions) (d : SegmentFiles) : SegmentFiles × WalManager :=
  let latest := findLatestSegment d.wal.keys
  let opened := d.openAppend latest.1
  (opened.2,
    { inner :=
        { currentWal := SegmentWal.newWithFile opened.1
          currentSegment := latest.1
          currentSize := d.metadataLen latest.1 }
      options
      firstSegment := latest.2 })

/-- The size of a record in the log if it is not compressed. -/
def estimatedSize (record : WalRecord) : ℕ :=
  8 + 1 + 8 + 4 + record.key.length +
    match record.value with
    | some value => 4 + value.length
    | none => 0

/-- The manager after a change of the current `Wal`. -/
def withWal (m : WalManager) (currentWal : SegmentWal) : WalManager :=
  { m with inner := { m.inner with currentWal } }

/-- `inner.current_size += size`. -/
def addSize (m : WalManager) (size : ℕ) : WalManager :=
  { m with inner := { m.inner with currentSize := m.inner.currentSize + size } }

/-- The condition of `archive_old_segments` to have nothing to do. -/
def keepsAll (m : WalManager) (current : ℕ) : Prop :=
  current ≤ (m.firstSegment + m.options.minSegmentsToKeep) % 2 ^ 64

instance (m : WalManager) (current : ℕ) : Decidable (m.keepsAll current) :=
  inferInstanceAs (Decidable (_ ≤ _))

/-- `current - min_segments_to_keep` as the `u64` wraps. -/
def archiveUpTo (m : WalManager) (current : ℕ) : ℕ :=
  (current + (2 ^ 64 - m.options.minSegmentsToKeep)) % 2 ^ 64

end WalManager

/-! ## Recovery -/

namespace SegmentFiles

variable (codec : WalCodec)

/-- The records of the segments up to a timestamp; a segment that cannot be read is left
out. -/
def recoverSegments (d : SegmentFiles) (targetTimestamp : ℕ) :
    List (ℕ × ℕ) → Except WalFailure (List WalRecord)
  | [] => .ok []
  | (_, file) :: rest =>
      match codec.recover (d.read file) with
      | .error .panic => .error .panic
      | .error (.error _) => recoverSegments d targetTimestamp rest
      | .ok records =>
          (recoverSegments d targetTimestamp rest).map
            (records.filter (fun record => record.timestamp ≤ targetTimestamp) ++ ·)

/-- What `read_dir` lists. -/
def listDir (dir : HashMap ℕ ℕ) : List (ℕ × ℕ) := dir.entries.map fun e => (e.1, e.2)

/-- `recover_pitr`. -/
def recoverPitr (d : SegmentFiles) (targetTimestamp : ℕ) : Except WalFailure (List WalRecord) :=
  let segments := (listDir d.archive ++ listDir d.wal).insertionSort fun a b => a.1 ≤ b.1
  d.recoverSegments codec targetTimestamp (Groups.dedupByKey Prod.fst segments)

end SegmentFiles

/-! ## Calls -/

/-- Where a call of `append` or `append_batch` stands, with its local variables.  `create`
and what holds the read lock are under a lock that the call has taken before. -/
inductive AppendPc where
  | check
  | appendShared
  | count
  | rotate
  | create
  | readCurrent
  | loadFirst (current : ℕ)
  | scan (segmentId archiveUpTo : ℕ)
  | rename (segmentId archiveUpTo : ℕ)
  | storeFirst (archiveUpTo : ℕ)
  | appendAlone
  deriving DecidableEq, Repr

/-- A call under way: what it appends, and where it stands. -/
structure AppendCall where
  records : List WalRecord
  isBatch : Bool
  pc : AppendPc
  deriving DecidableEq, Repr

/-- The directories, the manager if there is one, who holds its lock, and the calls. -/
structure WalSystem where
  files : SegmentFiles
  manager : Option WalManager
  readers : List ℕ
  writer : Option ℕ
  calls : HashMap ℕ AppendCall
  nextCallId : ℕ

/-- A call goes on, or it returns `Ok` or an error. -/
inductive CallOutcome where
  | goOn (pc : AppendPc)
  | returned (isOk : Bool)
  deriving DecidableEq, Repr

/-- A session begins or ends, a call begins or takes its next step, bytes of a buffer come into
the file, or `sync` is called. -/
inductive WalStep where
  | open (options : WalManagerOptions)
  | close
  | append (record : WalRecord)
  | appendBatch (records : List WalRecord)
  | advance (callId : ℕ)
  | spill (count : ℕ)
  | sync

namespace AppendCall

/-- The size counted for all records of the call. -/
def estimatedSize (call : AppendCall) : ℕ := (call.records.map WalManager.estimatedSize).sum

/-- `append_batch` counts twice what it appends to a new segment. -/
def sizeAlone (call : AppendCall) : ℕ :=
  if call.isBatch then call.estimatedSize + call.estimatedSize else call.estimatedSize

end AppendCall

namespace WalSystem

/-- No files, no manager and no calls. -/
def init : WalSystem :=
  { files := SegmentFiles.empty, manager := none, readers := [], writer := none, calls := ∅
    nextCallId := 0 }

/-- Nobody holds the lock. -/
def isFree (s : WalSystem) : Bool := s.readers.isEmpty && s.writer.isNone

variable (codec : WalCodec)

/-- The call appends to the current segment. -/
def appendCurrent (s : WalSystem) (m : WalManager) (records : List WalRecord) :
    SegmentFiles × WalManager :=
  let written := m.inner.currentWal.append codec m.options.walOptions s.files records
  (written.1, m.withWal written.2)

/-- The next step of a call; one that waits for the lock stays where it is. -/
def advance (s : WalSystem) (m : WalManager) (callId : ℕ) (call : AppendCall) :
    WalSystem × CallOutcome :=
  match call.pc with
  | .check =>
      if s.writer.isSome then (s, .goOn .check)
      else if m.inner.currentSize + call.estimatedSize ≤ m.options.segmentSizeBytes then
        ({ s with readers := callId :: s.readers }, .goOn .appendShared)
      else (s, .goOn .rotate)
  | .appendShared =>
      let appended := s.appendCurrent codec m call.records
      ({ s with
        files := appended.1
        manager := some appended.2
        readers := s.readers.erase callId }, .goOn .count)
  | .count =>
      if s.isFree then ({ s with manager := some (m.addSize call.estimatedSize) }, .returned true)
      else (s, .goOn .count)
  | .rotate =>
      if s.isFree then
        let synced := m.inner.currentWal.sync s.files
        ({ s with files := synced.1, manager := some (m.withWal synced.2), writer := some callId },
          .goOn .create)
      else (s, .goOn .rotate)
  | .create =>
      let newSegment := (m.inner.currentSegment + 1) % 2 ^ 64
      let opened := s.files.openTruncate newSegment
      -- the old segment is dropped here, which writes what it has buffered
      let dropped := m.inner.currentWal.sync opened.2
      ({ s with
        files := dropped.1
        manager := some { m with
          inner :=
            { currentWal := SegmentWal.newWithFile opened.1
              currentSegment := newSegment
              currentSize := 0 } }
        writer := none }, .goOn (if m.options.archiveDir then .readCurrent else .appendAlone))
  | .readCurrent =>
      if s.writer.isSome then (s, .goOn .readCurrent)
      else (s, .goOn (.loadFirst m.inner.currentSegment))
  | .loadFirst current =>
      if m.keepsAll current then (s, .goOn .appendAlone)
      else (s, .goOn (.scan m.firstSegment (m.archiveUpTo current)))
  | .scan segmentId archiveUpTo =>
      if archiveUpTo ≤ segmentId then (s, .goOn (.storeFirst archiveUpTo))
      else
        match s.files.wal.lookup segmentId with
        | some _ => (s, .goOn (.rename segmentId archiveUpTo))
        | none => (s, .goOn (.scan (segmentId + 1) archiveUpTo))
  | .rename segmentId archiveUpTo =>
      match s.files.wal.lookup segmentId with
      | some file =>
          ({ s with files := s.files.rename segmentId file },
            .goOn (.scan (segmentId + 1) archiveUpTo))
      -- another call has moved the file since the check
      | none => (s, .returned false)
  | .storeFirst archiveUpTo =>
      ({ s with manager := some { m with firstSegment := archiveUpTo } }, .goOn .appendAlone)
  | .appendAlone =>
      if s.isFree then
        let appended := s.appendCurrent codec m call.records
        ({ s with
          files := appended.1
          manager := some (appended.2.addSize call.sizeAlone) }, .returned true)
      else (s, .goOn .appendAlone)

/-- A call begins. -/
def invoke (s : WalSystem) (records : List WalRecord) (isBatch : Bool) : WalSystem :=
  { s with
    calls := s.calls.insert s.nextCallId { records, isBatch, pc := .check }
    nextCallId := s.nextCallId + 1 }

/-- The call after its step. -/
def settle (callId : ℕ) (call : AppendCall) : WalSystem × CallOutcome → WalSystem
  | (s, .goOn pc) => { s with calls := s.calls.insert callId { call with pc } }
  | (s, .returned _) => { s with calls := s.calls.erase callId }

/-- One step; where it is not its turn, nothing happens.  A manager is closed when no call
uses it. -/
def step (s : WalSystem) (action : WalStep) : WalSystem :=
  match s.manager with
  | none =>
      match action with
      | .open options =>
          let opened := WalManager.open options s.files
          { s with files := opened.1, manager := some opened.2 }
      | _ => s
  | some m =>
      match action with
      | .open _ => s
      | .close =>
          if s.calls.entries = [] then
            { s with files := (m.inner.currentWal.sync s.files).1, manager := none }
          else s
      | .append record => s.invoke [record] false
      | .appendBatch records => s.invoke records true
      | .advance callId =>
          match s.calls.lookup callId with
          | none => s
          | some call => settle callId call (s.advance codec m callId call)
      | .spill count =>
          let spilled := m.inner.currentWal.spill s.files count
          { s with files := spilled.1, manager := some (m.withWal spilled.2) }
      | .sync =>
          if s.writer.isSome then s
          else
            let synced := m.inner.currentWal.sync s.files
            { s with files := synced.1, manager := some (m.withWal synced.2) }

end WalSystem
end Crabstash

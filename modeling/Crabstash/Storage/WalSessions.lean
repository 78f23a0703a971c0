import Crabstash.Storage.WalHistory

/-!
# One log over several sessions

A file that is opened with `Wal::open_with_options`, written by `append` and `append_batch`,
and closed, any number of times.  Every session has its own compression and its own sync
mode, so that the file is a sequence of frames of which each may be compressed or not
(`Frames`); whether a frame is stands in its type byte, and the reader needs no options.

The sync mode decides when bytes come from the buffer into the file, and the buffer may
empty itself earlier at any byte.  The invariant is about both together: what is in the file
with what is in the buffer behind it are the frames of the records so far.
-/

namespace Crabstash

namespace SegmentWal

/-- `flush`: the buffer goes into the file. -/
def flush (d : SegmentFiles) (wal : SegmentWal) : SegmentFiles × SegmentWal :=
  (d.write wal.file wal.buffer, { wal with buffer := [] })

end SegmentWal

/-- A call on an open log, or the buffer emptying a part of itself. -/
inductive WalCall where
  | append (record : WalRecord)
  | appendBatch (records : List WalRecord)
  | sync
  | flush
  | spill (count : ℕ)

/-- A session: the options it opens the log with, and its calls. -/
structure WalSession where
  options : WalOptions
  calls : List WalCall

namespace WalCall

/-- What the call is to append. -/
def records : WalCall → List WalRecord
  | append record => [record]
  | appendBatch records => records
  | sync => []
  | flush => []
  | spill _ => []

/-- The files and the open log after a call. -/
def step (codec : WalCodec) (options : WalOptions) (s : SegmentFiles × SegmentWal) :
    WalCall → SegmentFiles × SegmentWal
  | append record => s.2.append codec options s.1 [record]
  | appendBatch records => s.2.append codec options s.1 records
  | sync => s.2.sync s.1
  | flush => s.2.flush s.1
  | spill count => s.2.spill s.1 count

end WalCall

namespace WalSession

/-- What the calls of the session append. -/
def records (session : WalSession) : List WalRecord := session.calls.flatMap WalCall.records

/-- The file with this number is opened, and at the end the handle is dropped. -/
def run (codec : WalCodec) (path : ℕ) (d : SegmentFiles) (session : WalSession) : SegmentFiles :=
  let opened := d.openAppend path
  let s := session.calls.foldl (WalCall.step codec session.options)
    (opened.2, SegmentWal.newWithFile opened.1)
  (s.2.sync s.1).1

end WalSession

namespace SegmentFiles

/-- `recover`, on a file that may not be there. -/
def recoverPath (codec : WalCodec) (path : ℕ) (d : SegmentFiles) :
    Except WalFailure (List WalRecord) :=
  match d.wal.lookup path with
  | none => .error (.error .io)
  | some file => codec.recover (d.read file)

/-! ## The invariant -/

section

variable {codec : WalCodec} {path : ℕ} {d : SegmentFiles} {wal : SegmentWal}
  {records : List WalRecord}

/-- The open file and its buffer hold these records. -/
structure Holds (codec : WalCodec) (path : ℕ) (d : SegmentFiles) (wal : SegmentWal)
    (records : List WalRecord) : Prop where
  isOpen : d.wal.lookup path = some wal.file
  frames : WalCodec.Frames codec (d.read wal.file ++ wal.buffer) records

/-- The file is there and holds these records. -/
def Stores (codec : WalCodec) (path : ℕ) (d : SegmentFiles) (records : List WalRecord) : Prop :=
  ∃ file, d.wal.lookup path = some file ∧ WalCodec.Frames codec (d.read file) records

/-- The first part of the buffer comes into the file. -/
theorem Holds.move (h : Holds codec path d wal records) {moved : Bytes} {wal' : SegmentWal}
    (hfile : wal'.file = wal.file) (hbuffer : wal.buffer = moved ++ wal'.buffer) :
    Holds codec path (d.write wal.file moved) wal' records where
  isOpen := hfile ▸ h.isOpen
  frames := by
    rw [hfile, read_write, if_pos rfl, List.append_assoc, ← hbuffer]
    exact h.frames

theorem Holds.sync (h : Holds codec path d wal records) :
    Holds codec path (wal.sync d).1 (wal.sync d).2 records :=
  h.move rfl (List.append_nil _).symm

theorem Holds.maybeSync (h : Holds codec path d wal records) (options : WalOptions) :
    Holds codec path (wal.maybeSyncInternal options d).1 (wal.maybeSyncInternal options d).2
      records := by
  unfold SegmentWal.maybeSyncInternal
  cases options.syncMode with
  | noSync => exact h
  | sync => exact h.sync
  | dataSync => exact h.sync
  | groupSync =>
      simp only
      split
      · exact h.sync
      · exact h

/-- New frames go behind what is buffered. -/
theorem Holds.append (h : Holds codec path d wal records) (options : WalOptions)
    {records' : List WalRecord} (hrecords : ∀ record ∈ records', record.WellFormed) :
    Holds codec path (wal.append codec options d records').1 (wal.append codec options d records').2
      (records ++ records') := by
  obtain ⟨bytes, hframes, hfile, hbuffer⟩ := wal.foldl_writeRecord options hrecords
  apply Holds.maybeSync
  refine ⟨hfile ▸ h.isOpen, ?_⟩
  rw [hfile, hbuffer, ← List.append_assoc]
  exact h.frames.append hframes

theorem Holds.step (h : Holds codec path d wal records) (options : WalOptions) {call : WalCall}
    (hrecords : ∀ record ∈ call.records, record.WellFormed) :
    Holds codec path (call.step codec options (d, wal)).1 (call.step codec options (d, wal)).2
      (records ++ call.records) := by
  cases call with
  | append record => exact h.append options hrecords
  | appendBatch records' => exact h.append options hrecords
  | sync =>
      rw [WalCall.records, List.append_nil]
      exact h.sync
  | flush =>
      rw [WalCall.records, List.append_nil]
      exact h.move rfl (List.append_nil _).symm
  | spill count =>
      rw [WalCall.records, List.append_nil]
      exact h.move rfl (List.take_append_drop count wal.buffer).symm

theorem Holds.calls (h : Holds codec path d wal records) (options : WalOptions)
    {calls : List WalCall} (hrecords : ∀ record ∈ calls.flatMap WalCall.records, record.WellFormed) :
    Holds codec path (calls.foldl (WalCall.step codec options) (d, wal)).1
      (calls.foldl (WalCall.step codec options) (d, wal)).2
      (records ++ calls.flatMap WalCall.records) := by
  induction calls generalizing d wal records with
  | nil =>
      rw [List.flatMap_nil, List.append_nil]
      exact h
  | cons call rest ih =>
      rw [List.flatMap_cons, List.forall_mem_append] at hrecords
      rw [List.flatMap_cons, ← List.append_assoc]
      exact ih (h.step options hrecords.1) hrecords.2

/-- The file as it was found, and nothing buffered. -/
theorem Stores.openAppend (h : Stores codec path d records) :
    Holds codec path (d.openAppend path).2 (SegmentWal.newWithFile (d.openAppend path).1)
      records := by
  obtain ⟨file, hfile, hframes⟩ := h
  unfold SegmentFiles.openAppend
  rw [hfile]
  refine ⟨hfile, ?_⟩
  rw [SegmentWal.newWithFile, List.append_nil]
  exact hframes

/-- The first session makes a file. -/
theorem holds_openAppend (hnone : d.wal.lookup path = none) :
    Holds codec path (d.openAppend path).2 (SegmentWal.newWithFile (d.openAppend path).1) [] := by
  unfold SegmentFiles.openAppend
  rw [hnone]
  refine ⟨AList.lookup_insert _, ?_⟩
  rw [SegmentWal.newWithFile, List.append_nil]
  show WalCodec.Frames codec ((d.newFile path).read d.nextFile) []
  rw [read_newFile, if_pos rfl]
  exact .nil

/-- A closed file has everything, since the buffer is empty. -/
theorem Holds.close (h : Holds codec path d wal records) :
    Stores codec path (wal.sync d).1 records := by
  have hsync := h.sync
  refine ⟨wal.file, hsync.isOpen, ?_⟩
  have hframes := hsync.frames
  rwa [show (wal.sync d).2.buffer = [] from rfl, List.append_nil] at hframes

end
end SegmentFiles

/-! ## Sessions -/

namespace WalSession

open SegmentFiles

variable {codec : WalCodec} {path : ℕ}

/-- A session adds its records to those it has found. -/
theorem stores_run {d : SegmentFiles} {session : WalSession} {records : List WalRecord}
    (hopen : Holds codec path (d.openAppend path).2 (SegmentWal.newWithFile (d.openAppend path).1)
      records)
    (hrecords : ∀ record ∈ session.records, record.WellFormed) :
    Stores codec path (session.run codec path d) (records ++ session.records) :=
  (hopen.calls session.options hrecords).close

/-- The file after some sessions, each closed before the next. -/
def runAll (codec : WalCodec) (path : ℕ) (sessions : List WalSession) : SegmentFiles :=
  sessions.foldl (run codec path) SegmentFiles.empty

theorem stores_runAll {sessions : List WalSession} (hsessions : sessions ≠ [])
    (hrecords : ∀ record ∈ sessions.flatMap records, record.WellFormed) :
    Stores codec path (runAll codec path sessions) (sessions.flatMap records) := by
  unfold runAll
  induction sessions using List.reverseRecOn with
  | nil => contradiction
  | append_singleton sessions session ih =>
      rw [List.flatMap_append, List.forall_mem_append, List.flatMap_singleton] at hrecords
      rw [List.foldl_append, List.flatMap_append, List.flatMap_singleton]
      by_cases hfirst : sessions = []
      · subst hfirst
        exact stores_run (holds_openAppend rfl) hrecords.2
      · exact stores_run (ih hfirst hrecords.1).openAppend hrecords.2

/-- After the last session, reading the file gives the records of all of them in order. -/
theorem recover_runAll (hcodec : codec.Inverts) (path : ℕ) {sessions : List WalSession}
    (hsessions : sessions ≠ [])
    (hrecords : ∀ record ∈ sessions.flatMap records, record.WellFormed) :
    (runAll codec path sessions).recoverPath codec path = .ok (sessions.flatMap records) := by
  have hstores : Stores codec path (runAll codec path sessions) (sessions.flatMap records) :=
    stores_runAll hsessions hrecords
  obtain ⟨file, hfile, hframes⟩ := hstores
  rw [recoverPath, hfile]
  exact WalCodec.recover_of_frames hcodec hframes

/-- A session with every mode of writing, and one that compresses. -/
def mixedSessions : List WalSession :=
  [{ options := { syncMode := .noSync, enableCompression := false, groupCommitSizeBytes := 0 }
     calls := [.append (WalRecord.ofWrite [7] (some [1]) 1), .spill 3,
       .appendBatch [WalRecord.ofWrite [8] none 2, WalRecord.ofWrite [] (some []) 3], .flush] },
   { options := { syncMode := .groupSync, enableCompression := true, groupCommitSizeBytes := 30 }
     calls := [.append (WalRecord.ofWrite [7] none 4), .append (WalRecord.ofWrite [9] (some [2]) 5),
       .sync] }]

theorem recover_runAll_mixedSessions :
    (runAll WalHistory.storingCodec 0 mixedSessions).recoverPath WalHistory.storingCodec 0 =
      .ok (mixedSessions.flatMap records) :=
  recover_runAll WalHistory.inverts_storingCodec 0 (by decide) (by decide)

end WalSession
end Crabstash

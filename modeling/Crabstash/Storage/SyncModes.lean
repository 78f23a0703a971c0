import Crabstash.Storage.SegmentSizes
import Crabstash.Storage.TornWal
import Crabstash.Storage.WalSessions

/-!
# What a sync mode promises

A power failure takes what is in the buffer, and of what has come into the file everything
behind the last sync may go with it, from any byte on.  `durable` counts the bytes that the last
sync has made safe; a handle that is dropped syncs, so a file that is opened is safe as a whole.

The safe bytes end with a record, and `pending_bytes` counts exactly what is behind them, in the
file or still in the buffer (`Durable`).  With `Sync` and `DataSync` there is nothing behind them
when a call has returned, with `GroupSync` less than the size of a group (`Risks`).  What is
left after the failure is read as the safe records and perhaps some of the next ones, or not at
all if the cut goes through a body (`recover_powerFailure`).
-/

namespace Crabstash

namespace SegmentWal

/-- `maybe_sync_internal` syncs. -/
def syncs (options : WalOptions) (wal : SegmentWal) : Bool :=
  match options.syncMode with
  | .noSync => false
  | .sync => true
  | .dataSync => true
  | .groupSync => options.groupCommitSizeBytes ≤ wal.pendingBytes

theorem maybeSyncInternal_eq (options : WalOptions) (d : SegmentFiles) (wal : SegmentWal) :
    wal.maybeSyncInternal options d = if wal.syncs options = true then wal.sync d else (d, wal) := by
  unfold maybeSyncInternal syncs
  cases options.syncMode with
  | noSync => rfl
  | sync => rfl
  | dataSync => rfl
  | groupSync => simp only [decide_eq_true_eq]

end SegmentWal

namespace WalCall

/-- The call syncs the file before it returns. -/
def syncs (codec : WalCodec) (options : WalOptions) (wal : SegmentWal) : WalCall → Bool
  | append record => (wal.writeRecord codec options record).syncs options
  | appendBatch records => (records.foldl (SegmentWal.writeRecord codec options) wal).syncs options
  | sync => true
  | flush => false
  | spill _ => false

end WalCall

/-- An open log, and how many bytes of the file are safe. -/
structure DurableWal where
  files : SegmentFiles
  wal : SegmentWal
  durable : ℕ

namespace DurableWal

/-- The file as everybody sees it. -/
def content (s : DurableWal) : Bytes := s.files.read s.wal.file

/-- `Wal::open_with_options`, on a file that has been closed. -/
def «open» (path : ℕ) (d : SegmentFiles) : DurableWal :=
  let opened := d.openAppend path
  { files := opened.2
    wal := SegmentWal.newWithFile opened.1
    durable := (opened.2.read opened.1).length }

/-- The log after a call, and how much of its file is durable. -/
def step (codec : WalCodec) (options : WalOptions) (s : DurableWal) (call : WalCall) :
    DurableWal :=
  let next := call.step codec options (s.files, s.wal)
  { files := next.1
    wal := next.2
    durable :=
      if call.syncs codec options s.wal = true then (next.1.read next.2.file).length
      else s.durable }

/-- The log in the middle of a session, after some others. -/
def reach (codec : WalCodec) (path : ℕ) (sessions : List WalSession) (session : WalSession) :
    DurableWal :=
  session.calls.foldl (step codec session.options) («open» path (WalSession.runAll codec path sessions))

/-- What a power failure leaves, if it leaves this many bytes. -/
def disk (s : DurableWal) (n : ℕ) : Bytes := s.content.take n

end DurableWal

/-- The records that are not safe when a call has returned. -/
def WalOptions.Risks (codec : WalCodec) (options : WalOptions) (lost : List WalRecord) : Prop :=
  match options.syncMode with
  | .noSync => True
  | .sync => lost = []
  | .dataSync => lost = []
  | .groupSync => lost = [] ∨ (codec.encoded options lost).length < options.groupCommitSizeBytes

namespace WalCodec

variable {codec : WalCodec}

theorem encoded_append (options : WalOptions) (records records' : List WalRecord) :
    codec.encoded options (records ++ records') =
      codec.encoded options records ++ codec.encoded options records' := List.flatMap_append

theorem frames_encoded (options : WalOptions) {records : List WalRecord}
    (hrecords : ∀ record ∈ records, record.WellFormed) :
    Frames codec (codec.encoded options records) records := by
  induction records with
  | nil => exact .nil
  | cons record rest ih =>
      rw [List.forall_mem_cons] at hrecords
      exact (ih hrecords.2).cons options.enableCompression hrecords.1

/-- Frames are the bytes of a log. -/
theorem Frames.exists_written {bytes : Bytes} {records : List WalRecord}
    (h : Frames codec bytes records) :
    ∃ written, codec.logBytes written = bytes ∧ written.map Prod.snd = records := by
  induction h with
  | nil => exact ⟨[], rfl, rfl⟩
  | @cons enableCompression record _ _ _ _ ih =>
      obtain ⟨written, hbytes, hrecords⟩ := ih
      refine ⟨(enableCompression, record) :: written, ?_, ?_⟩
      · rw [← hbytes]
        rfl
      · rw [List.map_cons, hrecords]

theorem whollyInside_prefix (n : ℕ) (records : List (Bool × WalRecord)) :
    codec.whollyInside n records <+: records.map Prod.snd := by
  induction records generalizing n with
  | nil => exact List.prefix_rfl
  | cons w rest ih =>
      rw [whollyInside]
      split
      · exact (List.prefix_cons_inj w.2).mpr (ih _)
      · exact List.nil_prefix

/-- Records that lie wholly inside come first. -/
theorem whollyInside_append {n : ℕ} {records records' : List (Bool × WalRecord)}
    (hinside : (codec.logBytes records).length ≤ n) :
    codec.whollyInside n (records ++ records') =
      records.map Prod.snd ++
        codec.whollyInside (n - (codec.logBytes records).length) records' := by
  induction records generalizing n with
  | nil => rfl
  | cons w rest ih =>
      have hbytes : (codec.logBytes (w :: rest)).length =
          (codec.written w).length + (codec.logBytes rest).length := List.length_append
      rw [hbytes] at hinside ⊢
      rw [List.cons_append, whollyInside, if_pos (by omega), ih (by omega), Nat.sub_sub]
      rfl

/-- A log cut behind its first records is read as these and some of the next ones, or not at
all. -/
theorem recover_take (hcodec : codec.Inverts) {bytes bytes' : Bytes}
    {kept lost : List WalRecord} (hkept : Frames codec bytes kept) (hlost : Frames codec bytes' lost)
    {n : ℕ} (hn : bytes.length ≤ n) :
    codec.recover ((bytes ++ bytes').take n) = .error (.error .io) ∨
      ∃ more, more <+: lost ∧ codec.recover ((bytes ++ bytes').take n) = .ok (kept ++ more) := by
  have hwell : ∀ record ∈ kept ++ lost, record.WellFormed :=
    List.forall_mem_append.mpr ⟨hkept.wellFormed, hlost.wellFormed⟩
  obtain ⟨written, rfl, rfl⟩ := hkept.exists_written
  obtain ⟨written', rfl, rfl⟩ := hlost.exists_written
  have hbytes : codec.logBytes written ++ codec.logBytes written' =
      codec.logBytes (written ++ written') := List.flatMap_append.symm
  have hall : ∀ w ∈ written ++ written', w.2.WellFormed := by
    intro w hw
    apply hwell
    rw [← List.map_append]
    exact List.mem_map_of_mem hw
  have hread := recoverLoop_take hcodec hall n le_rfl
  rw [hbytes, recover, recoverWithCompression, hread]
  split
  · exact Or.inr ⟨_, codec.whollyInside_prefix _ written', by rw [whollyInside_append hn]⟩
  · exact Or.inl rfl

end WalCodec

namespace SegmentWal

theorem foldl_writeRecord_pendingBytes (codec : WalCodec) (wal : SegmentWal) (options : WalOptions)
    (records : List WalRecord) :
    (records.foldl (writeRecord codec options) wal).pendingBytes =
      wal.pendingBytes + (codec.encoded options records).length := by
  induction records generalizing wal with
  | nil => rfl
  | cons record rest ih =>
      have hcons : codec.encoded options (record :: rest) =
          codec.frame (codec.encodeRecord options.enableCompression record) ++
            codec.encoded options rest := rfl
      rw [List.foldl_cons, ih, hcons, List.length_append, WalCodec.length_frame]
      exact Nat.add_assoc _ _ _

end SegmentWal

/-! ## The safe records -/

/-- The safe bytes are those of the first records, and the rest has been counted. -/
structure Durable (codec : WalCodec) (options : WalOptions) (s : DurableWal)
    (kept lost : List WalRecord) : Prop where
  durable_le : s.durable ≤ s.content.length
  safe : WalCodec.Frames codec (s.content.take s.durable) kept
  rest : s.content ++ s.wal.buffer = s.content.take s.durable ++ codec.encoded options lost
  pending : s.wal.pendingBytes = (codec.encoded options lost).length
  wellFormed : ∀ record ∈ lost, record.WellFormed

namespace Durable

open DurableWal

variable {codec : WalCodec} {options : WalOptions} {s : DurableWal} {kept lost : List WalRecord}

theorem frames (h : Durable codec options s kept lost) :
    WalCodec.Frames codec (s.content ++ s.wal.buffer) (kept ++ lost) := by
  rw [h.rest]
  exact h.safe.append (WalCodec.frames_encoded options h.wellFormed)

/-- The first part of the buffer comes into the file. -/
theorem move (h : Durable codec options s kept lost) {moved : Bytes} {wal' : SegmentWal}
    (hfile : wal'.file = s.wal.file) (hbuffer : s.wal.buffer = moved ++ wal'.buffer)
    (hpending : wal'.pendingBytes = s.wal.pendingBytes) :
    Durable codec options
      { files := s.files.write s.wal.file moved, wal := wal', durable := s.durable } kept lost := by
  have hcontent : (s.files.write s.wal.file moved).read wal'.file = s.content ++ moved := by
    rw [hfile, SegmentFiles.read_write, if_pos rfl, content]
  have htake : (s.content ++ moved).take s.durable = s.content.take s.durable :=
    List.take_append_of_le_length h.durable_le
  refine ⟨?_, ?_, ?_, ?_, h.wellFormed⟩
  · show s.durable ≤ ((s.files.write s.wal.file moved).read wal'.file).length
    rw [hcontent, List.length_append]
    exact h.durable_le.trans (Nat.le_add_right _ _)
  · show WalCodec.Frames codec (((s.files.write s.wal.file moved).read wal'.file).take s.durable) kept
    rw [hcontent, htake]
    exact h.safe
  · show (s.files.write s.wal.file moved).read wal'.file ++ wal'.buffer =
      ((s.files.write s.wal.file moved).read wal'.file).take s.durable ++ _
    rw [hcontent, htake, List.append_assoc, ← hbuffer]
    exact h.rest
  · exact hpending.trans h.pending

/-- After a sync everything is safe. -/
theorem sync (h : Durable codec options s kept lost) :
    Durable codec options
      { files := (s.wal.sync s.files).1
        wal := (s.wal.sync s.files).2
        durable := ((s.wal.sync s.files).1.read (s.wal.sync s.files).2.file).length }
      (kept ++ lost) [] := by
  have hcontent : (s.wal.sync s.files).1.read (s.wal.sync s.files).2.file =
      s.content ++ s.wal.buffer := by
    rw [SegmentWal.sync, SegmentFiles.read_write, if_pos rfl, content]
  refine ⟨le_rfl, ?_, ?_, rfl, fun _ hmem => absurd hmem List.not_mem_nil⟩
  · show WalCodec.Frames codec (List.take _ ((s.wal.sync s.files).1.read _)) _
    rw [List.take_length, hcontent]
    exact h.frames
  · show (s.wal.sync s.files).1.read _ ++ [] = List.take _ ((s.wal.sync s.files).1.read _) ++ []
    rw [List.take_length]

/-- What the writes of a call leave. -/
theorem writes (h : Durable codec options s kept lost) {records : List WalRecord}
    (hrecords : ∀ record ∈ records, record.WellFormed) :
    Durable codec options
      { s with wal := records.foldl (SegmentWal.writeRecord codec options) s.wal }
      kept (lost ++ records) := by
  obtain ⟨hfile, hbuffer⟩ := SegmentFiles.foldl_writeRecord_eq codec s.wal options records
  have hcontent : s.files.read (records.foldl (SegmentWal.writeRecord codec options) s.wal).file =
      s.content := by rw [hfile, content]
  refine ⟨?_, ?_, ?_, ?_, List.forall_mem_append.mpr ⟨h.wellFormed, hrecords⟩⟩
  · rw [content, hcontent]
    exact h.durable_le
  · rw [content, hcontent]
    exact h.safe
  · rw [content, hcontent, hbuffer, ← List.append_assoc, h.rest, WalCodec.encoded_append,
      List.append_assoc]
  · rw [SegmentWal.foldl_writeRecord_pendingBytes, h.pending, WalCodec.encoded_append,
      List.length_append]

/-- A mode that does not sync leaves less than a group. -/
theorem risks_of_not_syncs (h : Durable codec options s kept lost)
    (hnot : s.wal.syncs options = false) : options.Risks codec lost := by
  unfold SegmentWal.syncs at hnot
  unfold WalOptions.Risks
  cases hmode : options.syncMode with
  | noSync => trivial
  | sync => simp [hmode] at hnot
  | dataSync => simp [hmode] at hnot
  | groupSync =>
      rw [hmode] at hnot
      have hlt : ¬ options.groupCommitSizeBytes ≤ s.wal.pendingBytes := of_decide_eq_false hnot
      rw [not_le, h.pending] at hlt
      exact Or.inr hlt

theorem risks_nil (codec : WalCodec) (options : WalOptions) : options.Risks codec [] := by
  unfold WalOptions.Risks
  cases options.syncMode with
  | noSync => trivial
  | sync => rfl
  | dataSync => rfl
  | groupSync => exact Or.inl rfl

end Durable

/-- The log with these records, some of which are safe. -/
def DurableWal.Keeps (codec : WalCodec) (options : WalOptions) (s : DurableWal)
    (records : List WalRecord) : Prop :=
  ∃ kept lost, kept ++ lost = records ∧ Durable codec options s kept lost ∧
    options.Risks codec lost

namespace DurableWal

variable {codec : WalCodec} {options : WalOptions} {s : DurableWal} {records : List WalRecord}

theorem Keeps.append (h : s.Keeps codec options records) {records' : List WalRecord}
    (hrecords : ∀ record ∈ records', record.WellFormed) :
    (s.step codec options (.appendBatch records')).Keeps codec options (records ++ records') := by
  obtain ⟨kept, lost, rfl, hdurable, _⟩ := h
  have hwrites := hdurable.writes hrecords
  rw [step, WalCall.step, WalCall.syncs, SegmentWal.append, SegmentWal.maybeSyncInternal_eq]
  cases hsyncs : (records'.foldl (SegmentWal.writeRecord codec options) s.wal).syncs options with
  | true =>
      exact ⟨kept ++ (lost ++ records'), [], by rw [List.append_nil, List.append_assoc],
        hwrites.sync, Durable.risks_nil codec options⟩
  | false =>
      exact ⟨kept, lost ++ records', (List.append_assoc _ _ _).symm, hwrites,
        hwrites.risks_of_not_syncs hsyncs⟩

theorem Keeps.step (h : s.Keeps codec options records) {call : WalCall}
    (hrecords : ∀ record ∈ call.records, record.WellFormed) :
    (s.step codec options call).Keeps codec options (records ++ call.records) := by
  cases call with
  | append record => exact h.append hrecords
  | appendBatch records' => exact h.append hrecords
  | sync =>
      obtain ⟨kept, lost, rfl, hdurable, _⟩ := h
      exact ⟨kept ++ lost, [], rfl, hdurable.sync, Durable.risks_nil codec options⟩
  | flush =>
      obtain ⟨kept, lost, rfl, hdurable, hrisks⟩ := h
      exact ⟨kept, lost, (List.append_nil _).symm,
        hdurable.move rfl (List.append_nil _).symm rfl, hrisks⟩
  | spill count =>
      obtain ⟨kept, lost, rfl, hdurable, hrisks⟩ := h
      exact ⟨kept, lost, (List.append_nil _).symm,
        hdurable.move rfl (List.take_append_drop count s.wal.buffer).symm rfl, hrisks⟩

theorem Keeps.calls (h : s.Keeps codec options records) {calls : List WalCall}
    (hrecords : ∀ record ∈ calls.flatMap WalCall.records, record.WellFormed) :
    (calls.foldl (DurableWal.step codec options) s).Keeps codec options
      (records ++ calls.flatMap WalCall.records) := by
  induction calls generalizing s records with
  | nil =>
      rw [List.flatMap_nil, List.append_nil]
      exact h
  | cons call rest ih =>
      rw [List.flatMap_cons, List.forall_mem_append] at hrecords
      rw [List.flatMap_cons, ← List.append_assoc]
      exact ih (h.step hrecords.1) hrecords.2

/-- What a handle finds is safe. -/
theorem keeps_open {path : ℕ} {d : SegmentFiles}
    (hopen : SegmentFiles.Holds codec path (d.openAppend path).2
      (SegmentWal.newWithFile (d.openAppend path).1) records) :
    («open» path d).Keeps codec options records := by
  have hframes := hopen.frames
  rw [SegmentWal.newWithFile, List.append_nil] at hframes
  have hall : («open» path d : DurableWal).content.take («open» path d).durable =
      («open» path d).content := List.take_length
  refine ⟨records, [], List.append_nil _, ⟨le_rfl, ?_, ?_, rfl, ?_⟩, Durable.risks_nil _ _⟩
  · rw [hall]
    exact hframes
  · rw [hall]
    rfl
  · exact fun _ hmem => absurd hmem List.not_mem_nil

theorem keeps_reach (codec : WalCodec) (path : ℕ) {sessions : List WalSession}
    {session : WalSession}
    (hrecords : ∀ record ∈ sessions.flatMap WalSession.records ++ session.records,
      record.WellFormed) :
    (reach codec path sessions session).Keeps codec session.options
      (sessions.flatMap WalSession.records ++ session.records) := by
  rw [List.forall_mem_append] at hrecords
  refine Keeps.calls ?_ hrecords.2
  by_cases hfirst : sessions = []
  · subst hfirst
    exact keeps_open (SegmentFiles.holds_openAppend rfl)
  · exact keeps_open (WalSession.stores_runAll hfirst hrecords.1).openAppend

/-- **A power failure takes at most what the sync mode leaves at risk.**  However much of the file
is left behind the safe bytes, it is read as the safe records and perhaps some of the next ones,
or the reader fails; exactly the safe bytes give the safe records. -/
theorem recover_powerFailure {codec : WalCodec} (hcodec : codec.Inverts) (path : ℕ)
    {sessions : List WalSession} {session : WalSession}
    (hrecords : ∀ record ∈ sessions.flatMap WalSession.records ++ session.records,
      record.WellFormed) {n : ℕ} (hn : (reach codec path sessions session).durable ≤ n) :
    ∃ kept lost, kept ++ lost = sessions.flatMap WalSession.records ++ session.records ∧
      session.options.Risks codec lost ∧
      (reach codec path sessions session).wal.pendingBytes =
        (codec.encoded session.options lost).length ∧
      codec.recover ((reach codec path sessions session).disk
        (reach codec path sessions session).durable) = .ok kept ∧
      (codec.recover ((reach codec path sessions session).disk n) = .error (.error .io) ∨
        ∃ more, more <+: lost ∧
          codec.recover ((reach codec path sessions session).disk n) = .ok (kept ++ more)) := by
  obtain ⟨kept, lost, heq, hdurable, hrisks⟩ := keeps_reach codec path hrecords
  refine ⟨kept, lost, heq, hrisks, hdurable.pending, WalCodec.recover_of_frames hcodec hdurable.safe,
    ?_⟩
  generalize reach codec path sessions session = s at hdurable hn ⊢
  -- what is left is a prefix of the file with the buffer behind it
  have hdisk : s.disk n =
      (s.content.take s.durable ++ codec.encoded session.options lost).take
        (min n s.content.length) := by
    rw [← hdurable.rest, List.take_append_of_le_length (min_le_right _ _), disk]
    exact List.take_eq_take_min
  rw [hdisk]
  refine WalCodec.recover_take hcodec hdurable.safe
    (WalCodec.frames_encoded session.options hdurable.wellFormed) ?_
  rw [List.length_take]
  exact min_le_min_right _ hn

/-- The third record fills the group; the fourth has come into the file in part. -/
def groupSession : WalSession :=
  { options := { syncMode := .groupSync, enableCompression := false, groupCommitSizeBytes := 60 }
    calls := [.append (WalRecord.ofWrite [7] (some [1]) 4), .append (WalRecord.ofWrite [8] none 5),
      .append (WalRecord.ofWrite [9] (some [2]) 6), .append (WalRecord.ofWrite [7] none 7),
      .spill 20] }

theorem recover_powerFailure_groupSession :
    ∃ kept lost, kept ++ lost =
        WalSession.mixedSessions.flatMap WalSession.records ++ groupSession.records ∧
      groupSession.options.Risks WalHistory.storingCodec lost ∧
      (reach WalHistory.storingCodec 0 WalSession.mixedSessions groupSession).wal.pendingBytes =
        (WalHistory.storingCodec.encoded groupSession.options lost).length ∧
      WalHistory.storingCodec.recover
        ((reach WalHistory.storingCodec 0 WalSession.mixedSessions groupSession).disk
          (reach WalHistory.storingCodec 0 WalSession.mixedSessions groupSession).durable) =
        .ok kept ∧
      (WalHistory.storingCodec.recover
          ((reach WalHistory.storingCodec 0 WalSession.mixedSessions groupSession).disk 204) =
          .error (.error .io) ∨
        ∃ more, more <+: lost ∧ WalHistory.storingCodec.recover
          ((reach WalHistory.storingCodec 0 WalSession.mixedSessions groupSession).disk 204) =
          .ok (kept ++ more)) :=
  recover_powerFailure WalHistory.inverts_storingCodec 0 (by decide) (by decide +kernel)

end DurableWal
end Crabstash

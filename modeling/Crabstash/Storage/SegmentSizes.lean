import Crabstash.Storage.WalThread

/-!
# Segment sizes

`append` and `append_batch` add to the size of the current segment what the records would
take without compression.  Without compression this is what the encoder writes, so that
between two calls the size is the number of bytes in the segment; but `append_batch` adds it
twice after a rotation, and from then on the size is too large until the next segment.

With compression the size is never too small, and this is all the bound on the segments
rests on.  A call that finds room leaves the segment within the bound, and one that does not
writes to an empty segment, so that what is longer than the bound is one call's.
-/

namespace Crabstash

/-! ## What is written -/

/-- What the writes of a call put into the buffer. -/
def WalCodec.encoded (codec : WalCodec) (options : WalOptions) (records : List WalRecord) : Bytes :=
  records.flatMap fun record =>
    codec.frame (codec.encodeRecord options.enableCompression record)

namespace WalCodec

variable (codec : WalCodec)

theorem length_frame (body : Bytes) : (codec.frame body).length = 8 + body.length := by
  simp only [frame, List.length_append, LittleEndian.length_toLE]
  omega

theorem estimatedSize_eq (record : WalRecord) :
    WalManager.estimatedSize record = 8 + (1 + record.payload.length) := by
  unfold WalManager.estimatedSize WalRecord.payload
  cases record.value with
  | none =>
      simp only [List.length_append, LittleEndian.length_toLE, List.length_nil]
      omega
  | some value =>
      simp only [List.length_append, LittleEndian.length_toLE]
      omega

theorem length_encodeRecord_plain (record : WalRecord) :
    (codec.encodeRecord false record).length = 1 + record.payload.length := by
  unfold encodeRecord
  simp only
  rw [if_neg (by simp), List.length_cons]
  omega

theorem length_encoded_le (options : WalOptions) (records : List WalRecord) :
    (codec.encoded options records).length ≤ (records.map WalManager.estimatedSize).sum := by
  induction records with
  | nil => exact le_rfl
  | cons record rest ih =>
      have hrecord := codec.length_encodeRecord_le options.enableCompression record
      have hcons : codec.encoded options (record :: rest) =
          codec.frame (codec.encodeRecord options.enableCompression record) ++
            codec.encoded options rest := rfl
      rw [hcons, List.length_append, length_frame, List.map_cons, List.sum_cons, estimatedSize_eq]
      omega

theorem length_encoded_plain {options : WalOptions} (hplain : options.enableCompression = false)
    (records : List WalRecord) :
    (codec.encoded options records).length = (records.map WalManager.estimatedSize).sum := by
  induction records with
  | nil => rfl
  | cons record rest ih =>
      have hcons : codec.encoded options (record :: rest) =
          codec.frame (codec.encodeRecord false record) ++ codec.encoded options rest := by
        rw [← hplain]
        rfl
      rw [hcons, List.length_append, length_frame, length_encodeRecord_plain, List.map_cons,
        List.sum_cons, estimatedSize_eq, ih]

end WalCodec

namespace SegmentFiles

/-- What has been written to a file, with what the open segment still buffers. -/
def written (d : SegmentFiles) (wal : SegmentWal) (file : ℕ) : Bytes :=
  d.read file ++ if file = wal.file then wal.buffer else []

variable {codec : WalCodec} {d : SegmentFiles} {wal : SegmentWal}

theorem written_of_nil (hbuffer : wal.buffer = []) (file : ℕ) : d.written wal file = d.read file := by
  rw [written, hbuffer, ite_self, List.append_nil]

/-- It is the same when buffered bytes come into the file. -/
theorem written_move {moved : Bytes} {wal' : SegmentWal} (hfile : wal'.file = wal.file)
    (hbuffer : wal.buffer = moved ++ wal'.buffer) (file : ℕ) :
    (d.write wal.file moved).written wal' file = d.written wal file := by
  rw [written, written, read_write, hfile, hbuffer]
  split
  · next heq => rw [heq, List.append_assoc]
  · rfl

theorem written_sync (file : ℕ) :
    (wal.sync d).1.written (wal.sync d).2 file = d.written wal file := by
  have hbuffer : wal.buffer = wal.buffer ++ (wal.sync d).2.buffer := (List.append_nil _).symm
  exact @written_move d wal wal.buffer (wal.sync d).2 rfl hbuffer file

theorem written_maybeSync (options : WalOptions) (file : ℕ) :
    (wal.maybeSyncInternal options d).1.written (wal.maybeSyncInternal options d).2 file
      = d.written wal file := by
  unfold SegmentWal.maybeSyncInternal
  cases options.syncMode with
  | noSync => rfl
  | sync => exact written_sync file
  | dataSync => exact written_sync file
  | groupSync =>
      simp only
      split
      · exact written_sync file
      · rfl

theorem maybeSync_file (options : WalOptions) :
    (wal.maybeSyncInternal options d).2.file = wal.file := by
  unfold SegmentWal.maybeSyncInternal
  cases options.syncMode with
  | noSync => rfl
  | sync => rfl
  | dataSync => rfl
  | groupSync =>
      simp only
      split <;> rfl

theorem foldl_writeRecord_eq (codec : WalCodec) (wal : SegmentWal) (options : WalOptions)
    (records : List WalRecord) :
    (records.foldl (SegmentWal.writeRecord codec options) wal).file = wal.file ∧
      (records.foldl (SegmentWal.writeRecord codec options) wal).buffer
        = wal.buffer ++ codec.encoded options records := by
  induction records generalizing wal with
  | nil => exact ⟨rfl, (List.append_nil _).symm⟩
  | cons record rest ih =>
      obtain ⟨hfile, hbuffer⟩ := ih (wal.writeRecord codec options record)
      refine ⟨hfile, ?_⟩
      rw [List.foldl_cons, hbuffer]
      exact List.append_assoc _ _ _

theorem append_file (options : WalOptions) (records : List WalRecord) :
    (wal.append codec options d records).2.file = wal.file :=
  (maybeSync_file options).trans (foldl_writeRecord_eq codec wal options records).1

/-- A call puts the encoding of its records behind what is written to the segment. -/
theorem written_append (options : WalOptions) (records : List WalRecord) (file : ℕ) :
    (wal.append codec options d records).1.written (wal.append codec options d records).2 file =
      d.written wal file ++ if file = wal.file then codec.encoded options records else [] := by
  obtain ⟨hfile, hbuffer⟩ := foldl_writeRecord_eq codec wal options records
  rw [SegmentWal.append, written_maybeSync, written, written, hfile, hbuffer]
  split
  · rw [List.append_assoc]
  · simp only [List.append_nil]

/-- Opening the current segment: all its bytes are in the file. -/
theorem read_openAppend (segmentId file : ℕ) :
    (d.openAppend segmentId).2.read file =
      if file = (d.openAppend segmentId).1 ∧ d.wal.lookup segmentId = none then []
      else d.read file := by
  unfold openAppend
  cases hlookup : d.wal.lookup segmentId with
  | some file' => simp
  | none =>
      rw [read_newFile]
      simp

theorem length_read_openAppend (segmentId : ℕ) :
    ((d.openAppend segmentId).2.read (d.openAppend segmentId).1).length
      = d.metadataLen segmentId := by
  rw [read_openAppend, metadataLen, openAppend]
  cases hlookup : d.wal.lookup segmentId with
  | some file => simp
  | none => simp

/-- A new segment is empty, whether or not there was a file of its name. -/
theorem read_openTruncate (segmentId file : ℕ) :
    (d.openTruncate segmentId).2.read file =
      if file = (d.openTruncate segmentId).1 then [] else d.read file := by
  unfold openTruncate
  cases hlookup : d.wal.lookup segmentId with
  | some file' =>
      show ((d.contents.insert file' []).lookup file).getD [] = _
      by_cases heq : file = file'
      · rw [if_pos heq, heq, AList.lookup_insert, Option.getD_some]
      · rw [if_neg heq, AList.lookup_insert_ne heq]
        rfl
  | none => exact read_newFile d segmentId file

end SegmentFiles

namespace WalManager

variable {d d' : SegmentFiles} {m m' : WalManager}

/-- What is written to the current segment. -/
def currentBytes (m : WalManager) (d : SegmentFiles) : Bytes :=
  d.written m.inner.currentWal m.inner.currentWal.file

/-- A step of another kind changes nothing of what is written. -/
theorem written_congr (hcontents : d'.contents = d.contents) (hinner : m'.inner = m.inner)
    (file : ℕ) : d'.written m'.inner.currentWal file = d.written m.inner.currentWal file := by
  rw [SegmentFiles.written, SegmentFiles.written, SegmentFiles.read, SegmentFiles.read, hcontents,
    hinner]

theorem currentBytes_move {moved : Bytes} {wal : SegmentWal}
    (hfile : wal.file = m.inner.currentWal.file)
    (hbuffer : m.inner.currentWal.buffer = moved ++ wal.buffer) :
    (m.withWal wal).currentBytes (d.write m.inner.currentWal.file moved) = m.currentBytes d := by
  rw [currentBytes, withWal, SegmentFiles.written_move hfile hbuffer, hfile, currentBytes]

theorem currentBytes_sync :
    (m.withWal (m.inner.currentWal.sync d).2).currentBytes (m.inner.currentWal.sync d).1
      = m.currentBytes d :=
  SegmentFiles.written_sync m.inner.currentWal.file

theorem currentBytes_congr (hcontents : d'.contents = d.contents) (hinner : m'.inner = m.inner) :
    m'.currentBytes d' = m.currentBytes d := by
  rw [currentBytes, written_congr hcontents hinner, hinner, currentBytes]

theorem currentBytes_append (codec : WalCodec) (records : List WalRecord) :
    (m.withWal (m.inner.currentWal.append codec m.options.walOptions d records).2).currentBytes
        (m.inner.currentWal.append codec m.options.walOptions d records).1 =
      m.currentBytes d ++ codec.encoded m.options.walOptions records := by
  rw [currentBytes, withWal, SegmentFiles.written_append, SegmentFiles.append_file, if_pos rfl,
    currentBytes]

/-- A call adds no more than its estimate. -/
theorem length_currentBytes_append_le (codec : WalCodec) (call : AppendCall) :
    ((m.withWal (m.inner.currentWal.append codec m.options.walOptions d
        call.records).2).currentBytes
      (m.inner.currentWal.append codec m.options.walOptions d call.records).1).length ≤
      (m.currentBytes d).length + call.estimatedSize := by
  rw [currentBytes_append, List.length_append]
  exact Nat.add_le_add_left (codec.length_encoded_le m.options.walOptions call.records) _

/-- Without compression it adds just that. -/
theorem length_currentBytes_append_plain (codec : WalCodec)
    (hplain : m.options.walOptions.enableCompression = false) (call : AppendCall) :
    ((m.withWal (m.inner.currentWal.append codec m.options.walOptions d
        call.records).2).currentBytes
      (m.inner.currentWal.append codec m.options.walOptions d call.records).1).length =
      (m.currentBytes d).length + call.estimatedSize := by
  rw [currentBytes_append, List.length_append, codec.length_encoded_plain hplain]
  rfl

/-- What is written after a rotation: the buffer is empty, so that nothing comes into the old
file any more. -/
theorem written_create (hbuffer : m.inner.currentWal.buffer = []) {segment : ℕ}
    (hinner : m'.inner =
      { currentWal := SegmentWal.newWithFile (d.openTruncate segment).1
        currentSegment := segment, currentSize := 0 }) (file : ℕ) :
    (m.inner.currentWal.sync (d.openTruncate segment).2).1.written m'.inner.currentWal file =
      if file = m'.inner.currentWal.file then [] else d.written m.inner.currentWal file := by
  rw [hinner, SegmentFiles.written_of_nil rfl, SegmentFiles.written_of_nil hbuffer]
  show ((d.openTruncate segment).2.write m.inner.currentWal.file m.inner.currentWal.buffer).read
    file = _
  rw [hbuffer, SegmentFiles.read_write, List.append_nil]
  split
  · next heq =>
      rw [heq]
      exact SegmentFiles.read_openTruncate segment _
  · exact SegmentFiles.read_openTruncate segment file

theorem currentBytes_create (hbuffer : m.inner.currentWal.buffer = []) {segment : ℕ}
    (hinner : m'.inner =
      { currentWal := SegmentWal.newWithFile (d.openTruncate segment).1
        currentSegment := segment, currentSize := 0 }) :
    m'.currentBytes (m.inner.currentWal.sync (d.openTruncate segment).2).1 = [] := by
  rw [currentBytes, written_create hbuffer hinner, if_pos rfl]

theorem currentBytes_open (options : WalManagerOptions) :
    ((WalManager.open options d).2.currentBytes (WalManager.open options d).1).length =
      (WalManager.open options d).2.inner.currentSize := by
  rw [currentBytes, SegmentFiles.written_of_nil rfl]
  exact SegmentFiles.length_read_openAppend _

end WalManager

/-! ## The size without compression -/

namespace AppendPc

/-- The call has found no room in the current segment. -/
def isRotating : AppendPc → Bool
  | rotate => true
  | create => true
  | pc => pc.isFresh

theorem isRotating_of_isFresh {pc : AppendPc} (hfresh : pc.isFresh = true) :
    pc.isRotating = true := by
  cases pc <;> first | rfl | contradiction

theorem ne_create_of_isFresh {pc : AppendPc} (hfresh : pc.isFresh = true) : pc ≠ .create := by
  rintro rfl
  contradiction

end AppendPc

namespace AppendCall

/-- What the call has appended and not yet counted. -/
def uncounted (call : AppendCall) : ℕ :=
  match call.pc with
  | .count => call.estimatedSize
  | _ => 0

theorem uncounted_of_isFresh {call : AppendCall} (hfresh : call.pc.isFresh = true) :
    call.uncounted = 0 := by
  obtain ⟨records, isBatch, pc⟩ := call
  cases pc <;> first | rfl | contradiction

theorem estimatedSize_le_sizeAlone (call : AppendCall) : call.estimatedSize ≤ call.sizeAlone := by
  unfold sizeAlone
  split
  · exact Nat.le_add_left _ _
  · exact le_rfl

theorem sizeAlone_of_batch_nil {call : AppendCall}
    (hbatch : call.isBatch = true → call.records = []) : call.sizeAlone = call.estimatedSize := by
  unfold sizeAlone
  split
  · next hisBatch =>
      rw [estimatedSize, hbatch hisBatch]
      rfl
  · rfl

end AppendCall

namespace WalSystem

/-- A batch that is not empty finds room in the current segment. -/
def BatchFits (s : WalSystem) : WalStep → Prop
  | .advance callId => ∀ m ∈ s.manager, ∀ call ∈ s.calls.lookup callId,
      call.pc = .check → call.isBatch = true → call.records ≠ [] →
        m.inner.currentSize + call.estimatedSize ≤ m.options.segmentSizeBytes
  | _ => True

/-- The manager is opened without compression. -/
def OpensPlain : WalStep → Prop
  | .open options => options.walOptions.enableCompression = false
  | _ => True

instance (s : WalSystem) (action : WalStep) : Decidable (s.BatchFits action) :=
  match action with
  | .open _ => inferInstanceAs (Decidable True)
  | .close => inferInstanceAs (Decidable True)
  | .append _ => inferInstanceAs (Decidable True)
  | .appendBatch _ => inferInstanceAs (Decidable True)
  | .advance callId => inferInstanceAs (Decidable (∀ m ∈ s.manager,
      ∀ call ∈ s.calls.lookup callId, call.pc = .check → call.isBatch = true →
        call.records ≠ [] →
          m.inner.currentSize + call.estimatedSize ≤ m.options.segmentSizeBytes))
  | .spill _ => inferInstanceAs (Decidable True)
  | .sync => inferInstanceAs (Decidable True)

instance (action : WalStep) : Decidable (OpensPlain action) :=
  match action with
  | .open _ => inferInstanceAs (Decidable (_ = _))
  | .close => inferInstanceAs (Decidable True)
  | .append _ => inferInstanceAs (Decidable True)
  | .appendBatch _ => inferInstanceAs (Decidable True)
  | .advance _ => inferInstanceAs (Decidable True)
  | .spill _ => inferInstanceAs (Decidable True)
  | .sync => inferInstanceAs (Decidable True)

end WalSystem

/-- The size is the number of bytes that are written to the current segment. -/
def exactSizes : ThreadInvariant where
  closed _ := True
  idle d m := m.options.walOptions.enableCompression = false ∧
    m.inner.currentSize = (m.currentBytes d).length
  busy d m call := m.options.walOptions.enableCompression = false ∧
    m.inner.currentSize + call.uncounted = (m.currentBytes d).length ∧
    (call.pc = .create → m.inner.currentWal.buffer = []) ∧
    (call.pc.isRotating = true → call.isBatch = true → call.records = [])

/-- A step of a call keeps the size exact, if a batch with records finds room. -/
theorem exactSizes_advance {codec : WalCodec} {d d' : SegmentFiles} {m m' : WalManager}
    {call : AppendCall} {outcome : CallOutcome}
    (hfits : call.pc = .check → call.isBatch = true → call.records ≠ [] →
      m.inner.currentSize + call.estimatedSize ≤ m.options.segmentSizeBytes)
    (hbusy : exactSizes.busy d m call) (heffect : AppendEffect codec d m call d' m' outcome) :
    exactSizes.After d' m' call outcome := by
  obtain ⟨records, isBatch, pc⟩ := call
  obtain ⟨hplain, hsize, hcreate, hbatch⟩ := hbusy
  cases heffect with
  | waits => exact ⟨hplain, hsize, hcreate, hbatch⟩
  | room hpc hroom =>
      obtain rfl : pc = .check := hpc
      exact ⟨hplain, hsize, fun h => by contradiction, fun h => by contradiction⟩
  | full hpc hfull =>
      obtain rfl : pc = .check := hpc
      refine ⟨hplain, hsize, fun h => by contradiction, fun _ hisBatch => ?_⟩
      -- no batch with records comes to the rotation
      by_contra hne
      exact hfull (hfits rfl hisBatch hne)
  | appends hpc =>
      obtain rfl : pc = .appendShared := hpc
      refine ⟨hplain, ?_, fun h => by contradiction, fun h => by contradiction⟩
      rw [m.length_currentBytes_append_plain codec hplain ⟨records, isBatch, .appendShared⟩,
        ← hsize]
      rfl
  | counts hpc =>
      obtain rfl : pc = .count := hpc
      exact ⟨hplain, hsize⟩
  | syncs hpc =>
      obtain rfl : pc = .rotate := hpc
      refine ⟨hplain, ?_, fun _ => rfl, fun _ => hbatch rfl⟩
      rw [WalManager.currentBytes_sync]
      exact hsize
  | creates hpc hpc' hoptions hinner =>
      obtain rfl : pc = .create := hpc
      refine ⟨hoptions ▸ hplain, ?_, fun h => absurd h (AppendPc.ne_create_of_isFresh hpc'),
        fun _ => hbatch rfl⟩
      rw [WalManager.currentBytes_create (hcreate rfl) hinner,
        AppendCall.uncounted_of_isFresh hpc', hinner]
      rfl
  | passes hpc hcontents hinner hoptions houtcome =>
      have hsize' : m'.inner.currentSize = (m'.currentBytes d').length := by
        rw [AppendCall.uncounted_of_isFresh hpc] at hsize
        rw [WalManager.currentBytes_congr hcontents hinner, hinner]
        exact hsize
      cases outcome with
      | returned isOk => exact ⟨hoptions ▸ hplain, hsize'⟩
      | goOn pc' =>
          have hpc' := houtcome pc' rfl
          refine ⟨hoptions ▸ hplain, ?_, fun h => absurd h (AppendPc.ne_create_of_isFresh hpc'),
            fun _ => hbatch (AppendPc.isRotating_of_isFresh hpc)⟩
          rw [AppendCall.uncounted_of_isFresh hpc']
          exact hsize'
  | appendsAlone hpc =>
      obtain rfl : pc = .appendAlone := hpc
      refine ⟨hplain, ?_⟩
      have hsize : m.inner.currentSize = (m.currentBytes d).length := hsize
      -- the batch that is counted twice has no records
      have halone := AppendCall.sizeAlone_of_batch_nil (hbatch rfl)
      calc m.inner.currentSize + AppendCall.sizeAlone ⟨records, isBatch, .appendAlone⟩
          = (m.currentBytes d).length + AppendCall.estimatedSize _ := by rw [hsize, halone]
        _ = _ := (m.length_currentBytes_append_plain codec hplain ⟨records, isBatch, _⟩).symm

theorem preserved_exactSizes (codec : WalCodec) :
    exactSizes.Preserved codec fun s action => s.BatchFits action ∧ WalSystem.OpensPlain action where
  «open» := by
    rintro s options ⟨-, hplain⟩ -
    exact ⟨hplain, (WalManager.currentBytes_open options).symm⟩
  close := fun _ _ _ => trivial
  append := by
    rintro s m record - ⟨hplain, hsize⟩
    exact ⟨hplain, hsize, fun h => by contradiction, fun h => by contradiction⟩
  appendBatch := by
    rintro s m records - ⟨hplain, hsize⟩
    exact ⟨hplain, hsize, fun h => by contradiction, fun h => by contradiction⟩
  idleMove := by
    rintro d m moved wal hfile hbuffer ⟨hplain, hsize⟩
    refine ⟨hplain, ?_⟩
    rw [WalManager.currentBytes_move hfile hbuffer]
    exact hsize
  busyMove := by
    rintro d m call moved wal hfile hbuffer ⟨hplain, hsize, hcreate, hbatch⟩
    refine ⟨hplain, ?_, ?_, hbatch⟩
    · rw [WalManager.currentBytes_move hfile hbuffer]
      exact hsize
    · intro hpc
      rw [hcreate hpc] at hbuffer
      exact (List.append_eq_nil_iff.mp hbuffer.symm).2
  advance := by
    rintro s m callId call d' m' outcome hm hcall ⟨hfits, -⟩ hbusy heffect
    exact exactSizes_advance (hfits m hm call hcall) hbusy heffect

/-- In a run of one thread without compression, in which no batch finds the segment full,
the size is the number of bytes written to the current segment whenever no call is on its
way. -/
theorem currentSize_run (codec : WalCodec) (steps : List WalStep)
    (hsequential : Run.Along (WalSystem.step codec) WalSystem.Sequential WalSystem.init steps)
    (hplain : ∀ action ∈ steps, WalSystem.OpensPlain action)
    (hfits : Run.Along (WalSystem.step codec) WalSystem.BatchFits WalSystem.init steps) :
    let s := Run.run (WalSystem.step codec) WalSystem.init steps
    s.calls.entries = [] → ∀ m, s.manager = some m →
      m.inner.currentSize = (s.files.written m.inner.currentWal m.inner.currentWal.file).length := by
  intro s hnil m hm
  have hholds := ThreadInvariant.holds_run (preserved_exactSizes codec) trivial hsequential
    (hfits.and (Run.along_of_forall hplain _))
  exact (hholds.idle m hm hnil).2

/-- Three records, the second of which starts a new segment, and the third in the next
session. -/
theorem currentSize_threeRecords :
    let s := Run.run (WalSystem.step WalHistory.storingCodec) WalSystem.init
      (.open (WalHistory.optionsKeeping 0) :: (WalHistory.appendNumber 0 ++
        WalHistory.appendNumber 1) ++ [.close, .open (WalHistory.optionsKeeping 0)] ++
        WalHistory.appendNumber 2)
    s.calls.entries = [] → ∀ m, s.manager = some m →
      m.inner.currentSize = (s.files.written m.inner.currentWal m.inner.currentWal.file).length :=
  currentSize_run WalHistory.storingCodec _ (by decide +kernel) (by decide) (by decide +kernel)

/-- A batch of two records for which there is no room. -/
def oneBatch : List WalStep :=
  [.open (WalHistory.optionsKeeping 0),
    .appendBatch [WalHistory.recordNumber 0, WalHistory.recordNumber 1]] ++
    List.replicate 14 (.advance 0)

/-- A batch that starts a new segment is counted twice. -/
theorem currentSize_oneBatch :
    ¬∀ (codec : WalCodec) (steps : List WalStep),
      Run.Along (WalSystem.step codec) WalSystem.Sequential WalSystem.init steps →
      (∀ action ∈ steps, WalSystem.OpensPlain action) →
      let s := Run.run (WalSystem.step codec) WalSystem.init steps
      s.calls.entries = [] → ∀ m, s.manager = some m →
        m.inner.currentSize
          = (s.files.written m.inner.currentWal m.inner.currentWal.file).length := by
  intro h
  have hexact := h WalHistory.storingCodec oneBatch (by decide +kernel) (by decide)
    (by decide +kernel)
  have hsizes : (Run.run (WalSystem.step WalHistory.storingCodec) WalSystem.init
      oneBatch).manager.map (fun m => (m.inner.currentSize,
        ((Run.run (WalSystem.step WalHistory.storingCodec) WalSystem.init oneBatch).files.written
          m.inner.currentWal m.inner.currentWal.file).length)) = some (108, 54) := by
    decide +kernel
  obtain ⟨m, hm, heq⟩ := Option.map_eq_some_iff.mp hsizes
  rw [← hexact m hm] at heq
  have hsize := congrArg Prod.fst heq
  have hlength := congrArg Prod.snd heq
  simp only at hsize hlength
  omega

/-! ## The bound on the segments -/

/-- The bytes are within the bound, or they are those of one call that is not empty. -/
def WithinSegment (codec : WalCodec) (options : WalManagerOptions) (Called : List WalRecord → Prop)
    (bytes : Bytes) : Prop :=
  bytes.length ≤ options.segmentSizeBytes ∨
    ∃ records, records ≠ [] ∧ Called records ∧ bytes = codec.encoded options.walOptions records

section

variable {codec : WalCodec} {options : WalManagerOptions} {Called : List WalRecord → Prop}

theorem withinSegment_nil : WithinSegment codec options Called [] := Or.inl (Nat.zero_le _)

/-- What one call writes to an empty segment. -/
theorem withinSegment_encoded {records : List WalRecord} (hcalled : Called records) :
    WithinSegment codec options Called (codec.encoded options.walOptions records) := by
  by_cases hnil : records = []
  · rw [hnil]
    exact withinSegment_nil
  · exact Or.inr ⟨records, hnil, hcalled, rfl⟩

/-- A call writes to the current segment only. -/
theorem withinSegment_append {d : SegmentFiles} {m : WalManager} (hoptions : m.options = options)
    {records : List WalRecord}
    (hwithin : ∀ file, WithinSegment codec options Called (d.written m.inner.currentWal file))
    (hcurrent : WithinSegment codec options Called
      (m.currentBytes d ++ codec.encoded options.walOptions records)) (file : ℕ) :
    WithinSegment codec options Called
      ((m.inner.currentWal.append codec m.options.walOptions d records).1.written
        (m.inner.currentWal.append codec m.options.walOptions d records).2 file) := by
  rw [SegmentFiles.written_append, hoptions]
  by_cases heq : file = m.inner.currentWal.file
  · rw [if_pos heq, heq]
    exact hcurrent
  · rw [if_neg heq, List.append_nil]
    exact hwithin file

end

/-- Every file is within the bound, and the size of the current segment is not too small. -/
def boundedSizes (codec : WalCodec) (options : WalManagerOptions)
    (Called : List WalRecord → Prop) : ThreadInvariant where
  closed d := ∀ file, WithinSegment codec options Called (d.read file)
  idle d m := m.options = options ∧
    (∀ file, WithinSegment codec options Called (d.written m.inner.currentWal file)) ∧
    (m.currentBytes d).length ≤ m.inner.currentSize
  busy d m call := m.options = options ∧ Called call.records ∧
    (∀ file, WithinSegment codec options Called (d.written m.inner.currentWal file)) ∧
    (m.currentBytes d).length ≤ m.inner.currentSize + call.uncounted ∧
    (call.pc = .appendShared →
      m.inner.currentSize + call.estimatedSize ≤ m.options.segmentSizeBytes) ∧
    (call.pc = .create → m.inner.currentWal.buffer = []) ∧
    (call.pc.isFresh = true → m.currentBytes d = [])

namespace WalSystem

/-- Every manager is opened with the same options. -/
def OpensWith (options : WalManagerOptions) : WalStep → Prop
  | .open options' => options' = options
  | _ => True

/-- What the calls are given is among `Called`. -/
def CallsFrom (Called : List WalRecord → Prop) : WalStep → Prop
  | .append record => Called [record]
  | .appendBatch records => Called records
  | _ => True

instance (options : WalManagerOptions) (action : WalStep) :
    Decidable (OpensWith options action) :=
  match action with
  | .open _ => inferInstanceAs (Decidable (_ = _))
  | .close => inferInstanceAs (Decidable True)
  | .append _ => inferInstanceAs (Decidable True)
  | .appendBatch _ => inferInstanceAs (Decidable True)
  | .advance _ => inferInstanceAs (Decidable True)
  | .spill _ => inferInstanceAs (Decidable True)
  | .sync => inferInstanceAs (Decidable True)

end WalSystem

/-- A call that has a new segment is within the bound before it writes. -/
theorem boundedSizes_busy_of_isFresh {codec : WalCodec} {options : WalManagerOptions}
    {Called : List WalRecord → Prop} {d : SegmentFiles} {m : WalManager} {call : AppendCall}
    (hfresh : call.pc.isFresh = true) (hoptions : m.options = options)
    (hcalled : Called call.records)
    (hwithin : ∀ file, WithinSegment codec options Called (d.written m.inner.currentWal file))
    (hempty : m.currentBytes d = []) : (boundedSizes codec options Called).busy d m call := by
  refine ⟨hoptions, hcalled, hwithin, ?_, ?_, ?_, fun _ => hempty⟩
  · rw [hempty]
    exact Nat.zero_le _
  · intro hpc
    rw [hpc] at hfresh
    contradiction
  · exact fun hpc => absurd hpc (AppendPc.ne_create_of_isFresh hfresh)

theorem boundedSizes_advance {codec : WalCodec} {options : WalManagerOptions}
    {Called : List WalRecord → Prop} {d d' : SegmentFiles} {m m' : WalManager} {call : AppendCall}
    {outcome : CallOutcome} (hbusy : (boundedSizes codec options Called).busy d m call)
    (heffect : AppendEffect codec d m call d' m' outcome) :
    (boundedSizes codec options Called).After d' m' call outcome := by
  obtain ⟨records, isBatch, pc⟩ := call
  obtain ⟨hoptions, hcalled, hwithin, hsize, hroom, hcreate, hfresh⟩ := hbusy
  have hcalled : Called records := hcalled
  cases heffect with
  | waits => exact ⟨hoptions, hcalled, hwithin, hsize, hroom, hcreate, hfresh⟩
  | room hpc hroom' =>
      obtain rfl : pc = .check := hpc
      exact ⟨hoptions, hcalled, hwithin, hsize, fun _ => hroom', fun h => by contradiction,
        fun h => by contradiction⟩
  | full hpc hfull =>
      obtain rfl : pc = .check := hpc
      exact ⟨hoptions, hcalled, hwithin, hsize, fun h => by contradiction,
        fun h => by contradiction, fun h => by contradiction⟩
  | appends hpc =>
      obtain rfl : pc = .appendShared := hpc
      have hadded := (m.length_currentBytes_append_le codec ⟨records, isBatch, .appendShared⟩).trans
        (Nat.add_le_add_right hsize _)
      refine ⟨hoptions, hcalled, ?_, hadded, fun h => by contradiction, fun h => by contradiction,
        fun h => by contradiction⟩
      -- the estimate, which found room, is not below what is written
      refine withinSegment_append hoptions hwithin (Or.inl ?_)
      rw [m.currentBytes_append] at hadded
      rw [← hoptions]
      exact hadded.trans (hroom rfl)
  | counts hpc =>
      obtain rfl : pc = .count := hpc
      exact ⟨hoptions, hwithin, hsize⟩
  | syncs hpc =>
      obtain rfl : pc = .rotate := hpc
      refine ⟨hoptions, hcalled, ?_, ?_, fun h => by contradiction, fun _ => rfl,
        fun h => by contradiction⟩
      · intro file
        rw [WalManager.withWal, SegmentFiles.written_sync]
        exact hwithin file
      · rw [WalManager.currentBytes_sync]
        exact hsize
  | creates hpc hpc' hoptions' hinner =>
      obtain rfl : pc = .create := hpc
      have hempty := WalManager.currentBytes_create (hcreate rfl) hinner
      refine boundedSizes_busy_of_isFresh hpc' (hoptions'.trans hoptions) hcalled ?_ hempty
      intro file
      rw [WalManager.written_create (hcreate rfl) hinner]
      split
      · exact withinSegment_nil
      · exact hwithin file
  | passes hpc hcontents hinner hoptions' houtcome =>
      have hempty : m'.currentBytes d' = [] :=
        (WalManager.currentBytes_congr hcontents hinner).trans (hfresh hpc)
      have hwithin' : ∀ file, WithinSegment codec options Called
          (d'.written m'.inner.currentWal file) := by
        intro file
        rw [WalManager.written_congr hcontents hinner]
        exact hwithin file
      cases outcome with
      | returned isOk =>
          refine ⟨hoptions'.trans hoptions, hwithin', ?_⟩
          rw [hempty]
          exact Nat.zero_le _
      | goOn pc' =>
          exact boundedSizes_busy_of_isFresh (houtcome pc' rfl) (hoptions'.trans hoptions) hcalled
            hwithin' hempty
  | appendsAlone hpc =>
      obtain rfl : pc = .appendAlone := hpc
      have hempty : m.currentBytes d = [] := hfresh rfl
      refine ⟨hoptions, withinSegment_append hoptions hwithin ?_, ?_⟩
      · rw [hempty, List.nil_append]
        -- the segment was empty: it has the records of this call alone
        exact withinSegment_encoded hcalled
      · calc _ ≤ (m.currentBytes d).length +
              AppendCall.estimatedSize ⟨records, isBatch, .appendAlone⟩ :=
              m.length_currentBytes_append_le codec ⟨records, isBatch, .appendAlone⟩
          _ = AppendCall.estimatedSize ⟨records, isBatch, .appendAlone⟩ := by
              rw [hempty, List.length_nil, Nat.zero_add]
          _ ≤ AppendCall.sizeAlone ⟨records, isBatch, .appendAlone⟩ :=
              AppendCall.estimatedSize_le_sizeAlone _
          _ ≤ m.inner.currentSize + AppendCall.sizeAlone ⟨records, isBatch, .appendAlone⟩ :=
              Nat.le_add_left _ _

theorem preserved_boundedSizes (codec : WalCodec) (options : WalManagerOptions)
    (Called : List WalRecord → Prop) :
    (boundedSizes codec options Called).Preserved codec fun _ action =>
      WalSystem.OpensWith options action ∧ WalSystem.CallsFrom Called action where
  «open» := by
    rintro s options' ⟨rfl, -⟩ hclosed
    refine ⟨rfl, ?_, (WalManager.currentBytes_open options').le⟩
    intro file
    rw [SegmentFiles.written_of_nil rfl]
    show WithinSegment codec options' Called ((s.files.openAppend _).2.read file)
    -- an existing segment keeps its content, a new one is empty
    rw [SegmentFiles.read_openAppend]
    split
    · exact withinSegment_nil
    · exact hclosed file
  close := by
    rintro d m ⟨-, hwithin, -⟩ file
    have hread := @SegmentFiles.written_of_nil (m.inner.currentWal.sync d).1
      (m.inner.currentWal.sync d).2 rfl file
    rw [← hread, SegmentFiles.written_sync]
    exact hwithin file
  append := by
    rintro s m record ⟨-, hcalled⟩ ⟨hoptions, hwithin, hsize⟩
    exact ⟨hoptions, hcalled, hwithin, hsize, fun h => by contradiction, fun h => by contradiction,
      fun h => by contradiction⟩
  appendBatch := by
    rintro s m records ⟨-, hcalled⟩ ⟨hoptions, hwithin, hsize⟩
    exact ⟨hoptions, hcalled, hwithin, hsize, fun h => by contradiction, fun h => by contradiction,
      fun h => by contradiction⟩
  idleMove := by
    rintro d m moved wal hfile hbuffer ⟨hoptions, hwithin, hsize⟩
    refine ⟨hoptions, ?_, ?_⟩
    · intro file
      rw [WalManager.withWal, SegmentFiles.written_move hfile hbuffer]
      exact hwithin file
    · rw [WalManager.currentBytes_move hfile hbuffer]
      exact hsize
  busyMove := by
    rintro d m call moved wal hfile hbuffer
      ⟨hoptions, hcalled, hwithin, hsize, hroom, hcreate, hfresh⟩
    refine ⟨hoptions, hcalled, ?_, ?_, hroom, ?_, ?_⟩
    · intro file
      rw [WalManager.withWal, SegmentFiles.written_move hfile hbuffer]
      exact hwithin file
    · rw [WalManager.currentBytes_move hfile hbuffer]
      exact hsize
    · intro hpc
      rw [hcreate hpc] at hbuffer
      exact (List.append_eq_nil_iff.mp hbuffer.symm).2
    · rw [WalManager.currentBytes_move hfile hbuffer]
      exact hfresh
  advance _ _ _ _ _ _ _ _ _ _ hbusy heffect := boundedSizes_advance hbusy heffect

/-- In a run of one thread that always opens the log with the same options, every segment of
a closed log is within the bound, or has the records of exactly one call that was given some. -/
theorem segment_bound_run (codec : WalCodec) (options : WalManagerOptions) (steps : List WalStep)
    (hsequential : Run.Along (WalSystem.step codec) WalSystem.Sequential WalSystem.init steps)
    (hoptions : ∀ action ∈ steps, WalSystem.OpensWith options action)
    (hclosed : (Run.run (WalSystem.step codec) WalSystem.init steps).manager = none) :
    let d := (Run.run (WalSystem.step codec) WalSystem.init steps).files
    ∀ segmentId file,
      (d.wal.lookup segmentId = some file ∨ d.archive.lookup segmentId = some file) →
        (d.read file).length ≤ options.segmentSizeBytes ∨
          ∃ records, records ≠ [] ∧
            ((∃ record, records = [record] ∧ WalStep.append record ∈ steps) ∨
              WalStep.appendBatch records ∈ steps) ∧
            d.read file = codec.encoded options.walOptions records := by
  intro d segmentId file _
  have hcalls : ∀ action ∈ steps, WalSystem.CallsFrom (fun records =>
      (∃ record, records = [record] ∧ WalStep.append record ∈ steps) ∨
        WalStep.appendBatch records ∈ steps) action := by
    intro action hmem
    cases action with
    | append record => exact Or.inl ⟨record, rfl, hmem⟩
    | appendBatch records => exact Or.inr hmem
    | _ => trivial
  have hholds := ThreadInvariant.holds_run (preserved_boundedSizes codec options _)
    (fun _ => withinSegment_nil) hsequential
    ((Run.along_of_forall hoptions _).and (Run.along_of_forall hcalls _))
  exact (hholds.closed hclosed).1 file

/-- A batch that is longer than a segment, and a record behind it. -/
theorem segment_bound_oneBatch :
    let steps := oneBatch ++ (.append (WalHistory.recordNumber 2) ::
      List.replicate 14 (.advance 1)) ++ [.close]
    let d := (Run.run (WalSystem.step WalHistory.storingCodec) WalSystem.init steps).files
    ∀ segmentId file,
      (d.wal.lookup segmentId = some file ∨ d.archive.lookup segmentId = some file) →
        (d.read file).length ≤ 30 ∨
          ∃ records, records ≠ [] ∧
            ((∃ record, records = [record] ∧ WalStep.append record ∈ steps) ∨
              WalStep.appendBatch records ∈ steps) ∧
            d.read file = WalHistory.storingCodec.encoded
              (WalHistory.optionsKeeping 0).walOptions records :=
  segment_bound_run WalHistory.storingCodec (WalHistory.optionsKeeping 0) _ (by decide +kernel)
    (by decide) (by decide +kernel)

end Crabstash

import Crabstash.Storage.WalHistory

/-!
# Recovery with a damaged segment

`recover_all` goes through the segments in the directory of the log, `recover_pitr` through
those in the archive as well.  Both log a warning for a segment that cannot be read and go on
with the next one.  So what comes back of a history in which one segment is damaged is the
history without the records of this segment, and what was appended after them is there; for
`recover_all` the archived segments are missing in any case.

The damage is to the content of one file.  The other files are as they were, since no two
segments have a file in common (`Partition.injective`).
-/

namespace Crabstash

namespace SegmentFiles

/-- Other bytes are in a file. -/
def damage (d : SegmentFiles) (file : ℕ) (bytes : Bytes) : SegmentFiles :=
  { d with contents := d.contents.insert file bytes }

theorem read_damage (d : SegmentFiles) (file file' : ℕ) (bytes : Bytes) :
    (d.damage file bytes).read file' = if file' = file then bytes else d.read file' := by
  unfold damage read
  split
  · next heq => rw [heq, AList.lookup_insert, Option.getD_some]
  · next hne => rw [AList.lookup_insert_ne hne]

variable (codec : WalCodec)

/-- The loop of `recover_from_timestamp`. -/
def recoverIds (d : SegmentFiles) (minTimestamp : ℕ) : List ℕ → Except WalFailure (List WalRecord)
  | [] => .ok []
  | segmentId :: rest =>
      match d.wal.lookup segmentId with
      | none => recoverIds d minTimestamp rest
      | some file =>
          match codec.recover (d.read file) with
          | .error .panic => .error .panic
          | .error (.error _) => recoverIds d minTimestamp rest
          | .ok records =>
              (recoverIds d minTimestamp rest).map
                (records.filter (fun record => minTimestamp ≤ record.timestamp) ++ ·)

/-- `recover_from_timestamp`: the segments in the order of their numbers, without the archive.
-/
def recoverFromTimestamp (d : SegmentFiles) (minTimestamp : ℕ) :
    Except WalFailure (List WalRecord) :=
  d.recoverIds codec minTimestamp (d.wal.keys.insertionSort (· ≤ ·))

/-- `recover_all`. -/
def recoverAll (d : SegmentFiles) : Except WalFailure (List WalRecord) :=
  d.recoverFromTimestamp codec 0

/-! ## What the loops return -/

variable {codec} {d : SegmentFiles}

/-- What is taken of a file: its records, or nothing if it cannot be read. -/
def Yields (codec : WalCodec) (d : SegmentFiles) (file : ℕ) (records : List WalRecord) : Prop :=
  codec.recover (d.read file) = .ok records ∨
    records = [] ∧ ∃ e, codec.recover (d.read file) = .error (.error e)

theorem recoverSegments_eq {segments : List (ℕ × ℕ)} {taken : ℕ → List WalRecord}
    (htaken : ∀ e ∈ segments, Yields codec d e.2 (taken e.1) ∧
      ∀ record ∈ taken e.1, record.timestamp < 2 ^ 64) :
    d.recoverSegments codec (2 ^ 64 - 1) segments
      = .ok ((segments.map Prod.fst).flatMap taken) := by
  induction segments with
  | nil => rfl
  | cons e rest ih =>
      obtain ⟨segmentId, file⟩ := e
      obtain ⟨⟨hyields, hbound⟩, hrest⟩ := List.forall_mem_cons.mp htaken
      have hall : (taken segmentId).filter (fun record => record.timestamp ≤ 2 ^ 64 - 1)
          = taken segmentId := by
        rw [List.filter_eq_self]
        intro record hrecord
        have := hbound record hrecord
        simp only [decide_eq_true_eq]
        omega
      rw [recoverSegments]
      rcases hyields with hok | ⟨hnil, e, herror⟩
      · simp only [hok, hall, ih hrest]
        rfl
      · simp only [herror, ih hrest, List.map_cons, List.flatMap_cons]
        have hnil : taken segmentId = [] := hnil
        rw [hnil, List.nil_append]

theorem recoverIds_eq {segments : List ℕ} {taken : ℕ → List WalRecord}
    (htaken : ∀ segmentId ∈ segments, ∃ file, d.wal.lookup segmentId = some file ∧
      Yields codec d file (taken segmentId)) :
    d.recoverIds codec 0 segments = .ok (segments.flatMap taken) := by
  induction segments with
  | nil => rfl
  | cons segmentId rest ih =>
      obtain ⟨⟨file, hlookup, hyields⟩, hrest⟩ := List.forall_mem_cons.mp htaken
      have hall : (taken segmentId).filter (fun record => 0 ≤ record.timestamp)
          = taken segmentId := by
        rw [List.filter_eq_self]
        intro record _
        simp
      rw [recoverIds]
      rcases hyields with hok | ⟨hnil, e, herror⟩
      · simp only [hlookup, hok, hall, ih hrest]
        rfl
      · simp only [hlookup, herror, ih hrest, List.flatMap_cons, hnil, List.nil_append]

end SegmentFiles

/-- The records in a segment when only some segments are kept. -/
theorem Landed.recordsIn_filter (landed : List Landed) (kept : ℕ → Bool) (segmentId : ℕ) :
    recordsIn (landed.filter fun e => kept e.segment) segmentId =
      if kept segmentId = true then recordsIn landed segmentId else [] := by
  unfold recordsIn
  rw [List.filter_filter]
  split
  · next hkept =>
      congr 1
      apply List.filter_congr
      intro e _
      by_cases heq : e.segment = segmentId
      · simp [heq, hkept]
      · simp [heq]
  · next hkept =>
      rw [List.flatMap_eq_nil_iff]
      intro e he
      obtain ⟨-, hboth⟩ := List.mem_filter.mp he
      rw [Bool.and_eq_true, decide_eq_true_eq] at hboth
      exact absurd (hboth.1 ▸ hboth.2) hkept

namespace Partition

variable {codec : WalCodec} {landed : List Landed} {d : SegmentFiles} {current : ℕ}
  {wal : SegmentWal}

/-- What is taken of the segments when one is damaged: nothing of this one, and the others as
they are. -/
theorem yields_damage (hcodec : codec.Inverts) (h : Partition codec landed d current wal)
    (hbuffer : wal.buffer = []) {damaged file : ℕ} (hdamaged : d.find damaged = some file)
    {bytes : Bytes} {e : Error} (hfails : codec.recover bytes = .error (.error e))
    (kept : ℕ → Bool) (hkept : kept damaged = false) {segmentId file' : ℕ}
    (hfind : d.find segmentId = some file')
    (hothers : segmentId ≠ damaged → kept segmentId = true) :
    SegmentFiles.Yields codec (d.damage file bytes) file'
      (Landed.recordsIn (landed.filter fun e => kept e.segment) segmentId) := by
  rw [SegmentFiles.Yields, SegmentFiles.read_damage, Landed.recordsIn_filter]
  by_cases heq : segmentId = damaged
  · have hfile : file' = file := by
      rw [heq, hdamaged] at hfind
      exact (Option.some.inj hfind).symm
    rw [if_pos hfile, heq, hkept]
    exact Or.inr ⟨rfl, e, hfails⟩
  · have hne : file' ≠ file := by
      rintro rfl
      exact heq (h.injective segmentId damaged _ hfind hdamaged)
    have hframes := h.holds segmentId file' hfind
    rw [hbuffer, ite_self, List.append_nil] at hframes
    rw [if_neg hne, if_pos (hothers heq)]
    exact Or.inl (WalCodec.recover_of_frames hcodec hframes)

/-- The kept segments give the calls that have appended to them, in their order. -/
theorem flatMap_recordsIn (h : Partition codec landed d current wal) (kept : ℕ → Bool)
    {segments : List ℕ} (hsorted : segments.Pairwise (· < ·))
    (hmem : ∀ segmentId file, d.find segmentId = some file → kept segmentId = true →
      segmentId ∈ segments) :
    segments.flatMap (Landed.recordsIn (landed.filter fun e => kept e.segment)) =
      (landed.filter fun e => kept e.segment).flatMap Landed.records := by
  have hplaced : ∀ e ∈ landed.filter (fun e => kept e.segment), e.segment ∈ segments := by
    intro e he
    obtain ⟨he, hkept⟩ := List.mem_filter.mp he
    obtain ⟨file, hfind⟩ := h.placed e he
    exact hmem e.segment file hfind hkept
  calc segments.flatMap (Landed.recordsIn (landed.filter fun e => kept e.segment))
      = (segments.flatMap fun segmentId =>
          (landed.filter fun e => kept e.segment).filter fun e =>
            e.segment = segmentId).flatMap Landed.records := by
        rw [List.flatMap_assoc]
        rfl
    _ = (landed.filter fun e => kept e.segment).flatMap Landed.records := by
        rw [Groups.flatMap_filter_key hsorted (h.sorted.filter _) hplaced]

theorem timestamp_lt_of_recordsIn (h : Partition codec landed d current wal) (kept : ℕ → Bool)
    {segmentId file : ℕ} (hfind : d.find segmentId = some file) {record : WalRecord}
    (hrecord : record ∈ Landed.recordsIn (landed.filter fun e => kept e.segment) segmentId) :
    record.timestamp < 2 ^ 64 := by
  rw [Landed.recordsIn_filter] at hrecord
  split at hrecord
  · exact ((h.holds segmentId file hfind).wellFormed record hrecord).timestamp
  · exact absurd hrecord List.not_mem_nil

theorem recoverPitr_damage (hcodec : codec.Inverts) (h : Partition codec landed d current wal)
    (hbuffer : wal.buffer = []) {damaged file : ℕ} (hdamaged : d.find damaged = some file)
    {bytes : Bytes} {e : Error} (hfails : codec.recover bytes = .error (.error e)) :
    (d.damage file bytes).recoverPitr codec (2 ^ 64 - 1) =
      .ok ((landed.filter fun e => e.segment ≠ damaged).flatMap Landed.records) := by
  obtain ⟨segments, hdedup, hsorted, hmem⟩ := h.segments_spec
  have hkeys : (segments.map Prod.fst).Pairwise (· < ·) := List.pairwise_map.mpr hsorted
  let kept : ℕ → Bool := fun segmentId => decide (segmentId ≠ damaged)
  have htaken : ∀ e ∈ segments, SegmentFiles.Yields codec (d.damage file bytes) e.2
      (Landed.recordsIn (landed.filter fun e => kept e.segment) e.1) ∧
        ∀ record ∈ Landed.recordsIn (landed.filter fun e => kept e.segment) e.1,
          record.timestamp < 2 ^ 64 := by
    intro e he
    have hfind := (hmem e).mp he
    exact ⟨h.yields_damage hcodec hbuffer hdamaged hfails kept (by simp [kept]) hfind (by simp [kept]),
      fun record hrecord => h.timestamp_lt_of_recordsIn kept hfind hrecord⟩
  have hlisted : (d.damage file bytes).recoverPitr codec (2 ^ 64 - 1) =
      (d.damage file bytes).recoverSegments codec (2 ^ 64 - 1) segments := by
    rw [SegmentFiles.recoverPitr, ← hdedup]
    rfl
  rw [hlisted, SegmentFiles.recoverSegments_eq htaken]
  congr 1
  apply h.flatMap_recordsIn kept hkeys
  intro segmentId file' hfind _
  exact List.mem_map.mpr ⟨(segmentId, file'), (hmem _).mpr hfind, rfl⟩

theorem recoverAll_damage (hcodec : codec.Inverts) (h : Partition codec landed d current wal)
    (hbuffer : wal.buffer = []) {damaged file : ℕ} (hdamaged : d.find damaged = some file)
    {bytes : Bytes} {e : Error} (hfails : codec.recover bytes = .error (.error e)) :
    (d.damage file bytes).recoverAll codec =
      .ok ((landed.filter fun e => e.segment ≠ damaged ∧
        (d.wal.lookup e.segment).isSome).flatMap Landed.records) := by
  let kept : ℕ → Bool := fun segmentId =>
    decide (segmentId ≠ damaged ∧ (d.wal.lookup segmentId).isSome)
  have hperm : (d.wal.keys.insertionSort (· ≤ ·)).Perm d.wal.keys := List.perm_insertionSort _ _
  have hmem : ∀ segmentId, segmentId ∈ d.wal.keys.insertionSort (· ≤ ·) ↔
      (d.wal.lookup segmentId).isSome = true := by
    intro segmentId
    rw [hperm.mem_iff, ← AList.mem_keys, ← AList.lookup_isSome]
  -- the numbers are keys of a map, so sorted they increase
  have hsorted : (d.wal.keys.insertionSort (· ≤ ·)).Pairwise (· < ·) := by
    have hle : (d.wal.keys.insertionSort (· ≤ ·)).Pairwise (· ≤ ·) := List.pairwise_insertionSort _ _
    have hne : (d.wal.keys.insertionSort (· ≤ ·)).Pairwise (· ≠ ·) :=
      hperm.nodup_iff.mpr d.wal.nodupKeys
    exact hle.imp₂ (fun _ _ => lt_of_le_of_ne) hne
  -- what is read of each segment, nothing of the damaged one
  have htaken : ∀ segmentId ∈ d.wal.keys.insertionSort (· ≤ ·),
      ∃ file', (d.damage file bytes).wal.lookup segmentId = some file' ∧
        SegmentFiles.Yields codec (d.damage file bytes) file'
          (Landed.recordsIn (landed.filter fun e => kept e.segment) segmentId) := by
    intro segmentId hin
    have hsome := (hmem segmentId).mp hin
    obtain ⟨file', hlookup⟩ := Option.isSome_iff_exists.mp hsome
    have hfind := SegmentFiles.find_of_wal hlookup (h.apart segmentId file' hlookup)
    exact ⟨file', hlookup, h.yields_damage hcodec hbuffer hdamaged hfails kept (by simp [kept]) hfind
      (fun hne => by simp [kept, hne, hsome])⟩
  have hloop : (d.damage file bytes).recoverAll codec = _ := SegmentFiles.recoverIds_eq htaken
  rw [hloop]
  congr 1
  apply h.flatMap_recordsIn kept hsorted
  intro segmentId file' _ hkept
  rw [hmem]
  exact (of_decide_eq_true hkept).2

end Partition
namespace WalHistory

/-- After every run, and with any damage to one segment that makes it unreadable, recovery
returns what has been appended, in the order in which it has been appended, without the
records of this segment; without the archive, what has been archived is missing, too. -/
theorem recover_damaged_run {codec : WalCodec} (hcodec : codec.Inverts) (steps : List WalStep)
    (hsteps : Run.Along (step codec) ReadyStep init steps)
    (hclosed : (Run.run (step codec) init steps).system.manager = none) :
    let h := Run.run (step codec) init steps
    ∃ landed : List Landed, h.Ordered landed ∧
      landed.Pairwise (fun e e' => e.segment ≤ e'.segment) ∧
      h.system.files.recoverPitr codec (2 ^ 64 - 1) = .ok (landed.flatMap Landed.records) ∧
      ∀ damaged file bytes e, h.system.files.find damaged = some file →
        codec.recover bytes = .error (.error e) →
          (h.system.files.damage file bytes).recoverPitr codec (2 ^ 64 - 1) =
            .ok ((landed.filter fun e => e.segment ≠ damaged).flatMap Landed.records) ∧
          (h.system.files.damage file bytes).recoverAll codec =
            .ok ((landed.filter fun e => e.segment ≠ damaged ∧
              (h.system.files.wal.lookup e.segment).isSome).flatMap Landed.records) := by
  intro h
  obtain ⟨landed, hsound⟩ := sound_run codec hsteps
  have hstored := hsound.stored
  rw [Stored, hclosed] at hstored
  obtain ⟨hrests, -⟩ := hstored
  refine ⟨landed, hsound.ordered, ?_, hrests.recoverPitr hcodec, ?_⟩
  · rcases hrests with ⟨-, rfl⟩ | ⟨current, wal, -, hpartition⟩
    · exact List.Pairwise.nil
    · exact hpartition.sorted
  · intro damaged file bytes e hdamaged hfails
    rcases hrests with ⟨hempty, -⟩ | ⟨current, wal, hbuffer, hpartition⟩
    · have hdamaged : (Run.run (step codec) init steps).system.files.find damaged = some file :=
        hdamaged
      rw [hempty] at hdamaged
      contradiction
    · exact ⟨hpartition.recoverPitr_damage hcodec hbuffer hdamaged hfails,
        hpartition.recoverAll_damage hcodec hbuffer hdamaged hfails⟩

/-- Three records in three segments. -/
def threeSegments : List WalStep :=
  .open { optionsKeeping 0 with archiveDir := false } ::
    (appendNumber 0 ++ appendNumber 1 ++ appendNumber 2) ++ [.close]

/-- A header whose body is missing. -/
def tornHeader : Bytes := [0, 0, 0, 0, 1, 0, 0, 0]

theorem recover_damaged_threeSegments :
    let h := Run.run (step storingCodec) init threeSegments
    ∃ landed : List Landed, h.Ordered landed ∧
      landed.Pairwise (fun e e' => e.segment ≤ e'.segment) ∧
      h.system.files.recoverPitr storingCodec (2 ^ 64 - 1) = .ok (landed.flatMap Landed.records) ∧
      ∀ damaged file bytes e, h.system.files.find damaged = some file →
        storingCodec.recover bytes = .error (.error e) →
          (h.system.files.damage file bytes).recoverPitr storingCodec (2 ^ 64 - 1) =
            .ok ((landed.filter fun e => e.segment ≠ damaged).flatMap Landed.records) ∧
          (h.system.files.damage file bytes).recoverAll storingCodec =
            .ok ((landed.filter fun e => e.segment ≠ damaged ∧
              (h.system.files.wal.lookup e.segment).isSome).flatMap Landed.records) :=
  recover_damaged_run inverts_storingCodec threeSegments (by decide +kernel) (by decide +kernel)

/-- With the second of three segments damaged, the first and the third record come back. -/
theorem not_prefix_damaged :
    ¬∀ (codec : WalCodec) (steps : List WalStep) (damaged file : ℕ) (bytes : Bytes) (e : Error)
      (appended records : List WalRecord),
      codec.Inverts → Run.Along (step codec) ReadyStep init steps →
      (Run.run (step codec) init steps).system.manager = none →
      let d := (Run.run (step codec) init steps).system.files
      d.find damaged = some file → codec.recover bytes = .error (.error e) →
      d.recoverPitr codec (2 ^ 64 - 1) = .ok appended →
      (d.damage file bytes).recoverPitr codec (2 ^ 64 - 1) = .ok records ∨
        (d.damage file bytes).recoverAll codec = .ok records →
      records <+: appended := by
  intro h
  have hfront := h storingCodec threeSegments 2 1 tornHeader .io
    [recordNumber 0, recordNumber 1, recordNumber 2] [recordNumber 0, recordNumber 2]
    inverts_storingCodec (by decide +kernel) (by decide +kernel) (by decide +kernel)
    (by decide +kernel) (by decide +kernel) (Or.inr (by decide +kernel))
  exact absurd hfront (by decide)

end WalHistory
end Crabstash

import Crabstash.Storage.DamagedSegments

/-!
# Recovery up to a point in time

`recover_pitr` returns what has been appended without the records that are too new, and
`recover_from_timestamp` returns the new ones.  Timestamps need not grow along the log, so
this is no initial part of it, and whether it is a state to go back to is another question.

It is what a snapshot shows: a memtable into which the records up to a timestamp have been
replayed answers every read as the memtable of the whole log answers it at the earlier of the
two timestamps (`getAtTs_replay_upTo`).  What a replay leaves of a version depends only on the
records with this version (`mem_iter_replay_filter`), and of these a limit on the timestamp
keeps all or none.  For the same reason the two parts, replayed one after the other, are as
good as the whole log (`getAtTs_replay_catchUp`).

The archive is where this can fail: `recover_from_timestamp` does not look there.
-/

namespace Crabstash

/-! ## Replaying a part of the records -/

namespace MemTable

section

variable {m m' : MemTable} {records : List WalRecord} {e : Key × Option Bytes}

theorem replay_cons (m : MemTable) (record : WalRecord) (records : List WalRecord) :
    m.replay (record :: records) = (m.record record.version record.effect).replay records := by
  rw [← replayRecord_eq]
  rfl

/-- Records that do not have the version may be left out. -/
theorem mem_iter_replay_filter {keep : WalRecord → Bool}
    (hkeep : ∀ record ∈ records, record.version = e.1 → keep record = true)
    (hmem : e ∈ m'.iter ↔ e ∈ m.iter) :
    e ∈ (m'.replay (records.filter keep)).iter ↔ e ∈ (m.replay records).iter := by
  induction records generalizing m m' with
  | nil => exact hmem
  | cons record records ih =>
      obtain ⟨hfirst, hrest⟩ := List.forall_mem_cons.mp hkeep
      rw [replay_cons]
      by_cases hkept : keep record = true
      · rw [List.filter_cons_of_pos hkept, replay_cons]
        apply ih hrest
        rw [mem_iter_record, mem_iter_record, hmem]
      · rw [List.filter_cons_of_neg hkept]
        apply ih hrest
        have hne : record.version ≠ e.1 := fun heq => hkept (hfirst heq)
        rw [hmem, mem_iter_record]
        constructor
        · exact fun hold => Or.inr ⟨hold, Ne.symm hne⟩
        · rintro (rfl | ⟨hold, -⟩)
          · exact absurd rfl hne
          · exact hold

/-- Without a record that has the version the replay does nothing to it. -/
theorem mem_iter_replay_of_forall_ne (hne : ∀ record ∈ records, record.version ≠ e.1) :
    e ∈ (m.replay records).iter ↔ e ∈ m.iter := by
  have hnone : records.filter (fun record => record.version = e.1) = [] := by
    rw [List.filter_eq_nil_iff]
    intro record hrecord
    simpa using hne record hrecord
  have hfilter : e ∈ (m.replay (records.filter fun record => record.version = e.1)).iter ↔
      e ∈ (m.replay records).iter :=
    mem_iter_replay_filter (fun _ _ heq => decide_eq_true heq) Iff.rfl
  rw [hnone] at hfilter
  exact hfilter.symm

/-- Two reads that may see the same versions. -/
theorem getAtTs_congr {ts ts' : ℕ}
    (hmem : ∀ e, e ∈ m'.iter ∧ e.1.timestamp ≤ ts' ↔ e ∈ m.iter ∧ e.1.timestamp ≤ ts)
    (keyData : Bytes) : m'.getAtTs keyData ts' = m.getAtTs keyData ts := by
  cases hget : m.getAtTs keyData ts with
  | none =>
      rw [getAtTs_eq_none_iff] at hget ⊢
      intro e he hdata
      by_contra hnot
      obtain ⟨hold, hle⟩ := (hmem e).mp ⟨he, not_lt.mp hnot⟩
      have hlt := hget e hold hdata
      omega
  | some effect =>
      obtain ⟨version, hversion, hold, hnewest⟩ := getAtTs_eq_some_iff.mp hget
      obtain ⟨hold', hversion'⟩ := (hmem (⟨keyData, version⟩, effect)).mpr ⟨hold, hversion⟩
      refine getAtTs_eq_some_iff.mpr ⟨version, hversion', hold', ?_⟩
      intro e he hdata hle
      obtain ⟨hmem, hle⟩ := (hmem e).mp ⟨he, hle⟩
      exact hnewest e hmem hdata hle

end

variable (records : List WalRecord) (target : ℕ)

theorem mem_iter_replay_upTo (e : Key × Option Bytes) :
    e ∈ (new.replay (records.filter fun record => record.timestamp ≤ target)).iter ↔
      e ∈ (new.replay records).iter ∧ e.1.timestamp ≤ target := by
  by_cases hle : e.1.timestamp ≤ target
  · rw [and_iff_left hle]
    refine mem_iter_replay_filter ?_ Iff.rfl
    intro record _ heq
    rw [← heq] at hle
    exact decide_eq_true hle
  · refine iff_of_false ?_ fun h => hle h.2
    rw [mem_iter_replay_of_forall_ne]
    · exact List.not_mem_nil
    · intro record hrecord heq
      have hkept := of_decide_eq_true (List.mem_filter.mp hrecord).2
      rw [← heq] at hle
      exact hle hkept

/-- The records up to `target` show the past: a read at any timestamp sees what a snapshot not
newer than `target` sees in the whole log. -/
theorem getAtTs_replay_upTo (keyData : Bytes) (ts : ℕ) :
    (new.replay (records.filter fun record => record.timestamp ≤ target)).getAtTs keyData ts =
      (new.replay records).getAtTs keyData (min ts target) := by
  apply getAtTs_congr
  intro e
  rw [mem_iter_replay_upTo, and_assoc, le_min_iff, and_comm (a := e.1.timestamp ≤ ts)]

/-- The records after `target` bring what has been recovered up to it to the present. -/
theorem getAtTs_replay_catchUp (keyData : Bytes) (ts : ℕ) :
    ((new.replay (records.filter fun record => record.timestamp ≤ target)).replay
        (records.filter fun record => target + 1 ≤ record.timestamp)).getAtTs keyData ts =
      (new.replay records).getAtTs keyData ts := by
  apply getAtTs_congr
  intro e
  refine and_congr_left fun _ => ?_
  by_cases hle : e.1.timestamp ≤ target
  · -- the version is in the first part
    rw [mem_iter_replay_of_forall_ne, mem_iter_replay_upTo, and_iff_left hle]
    intro record hrecord heq
    have hlater := of_decide_eq_true (List.mem_filter.mp hrecord).2
    rw [← heq] at hle
    exact absurd hlater (not_le.mpr (Nat.lt_succ_of_le hle))
  · -- the version is in the second part, and the first does nothing to it
    refine mem_iter_replay_filter ?_ (iff_of_false ?_ List.not_mem_nil)
    · intro record _ heq
      rw [← heq] at hle
      exact decide_eq_true (not_le.mp hle)
    · rw [mem_iter_replay_upTo]
      exact fun h => hle h.2

end MemTable

/-! ## What is read has a timestamp of eight bytes -/

theorem WalRecord.timestamp_lt_of_ofPayload {recordType : RecordType} {payload : Bytes}
    {record : WalRecord} (h : ofPayload recordType payload = some record) :
    record.timestamp < 2 ^ 64 := by
  unfold ofPayload at h
  obtain ⟨timestamp, htimestamp, h⟩ := Option.bind_eq_some_iff.mp h
  obtain ⟨keyLen, -, h⟩ := Option.bind_eq_some_iff.mp h
  obtain ⟨key, -, h⟩ := Option.bind_eq_some_iff.mp h
  have hlt : timestamp.1 < 2 ^ 64 := (LittleEndian.readLE_eq_some_iff.mp htimestamp).1
  cases recordType with
  | put =>
      obtain ⟨valueLen, -, h⟩ := Option.bind_eq_some_iff.mp h
      obtain ⟨value, -, h⟩ := Option.bind_eq_some_iff.mp h
      obtain rfl := Option.some.inj h
      exact hlt
  | delete =>
      obtain rfl := Option.some.inj h
      exact hlt

namespace WalCodec

variable {codec : WalCodec}

theorem timestamp_lt_of_decodeRecord {decompress : Bool} {body : Bytes} {record : WalRecord}
    (h : codec.decodeRecord decompress body = .ok record) : record.timestamp < 2 ^ 64 := by
  unfold decodeRecord at h
  split at h
  · contradiction
  · split at h
    · contradiction
    · extract_lets payload at h
      cases hpayload : payload with
      | error e =>
          rw [hpayload] at h
          contradiction
      | ok fields =>
          simp only [hpayload] at h
          split at h
          · contradiction
          · next hfields =>
              obtain rfl := Except.ok.inj h
              exact WalRecord.timestamp_lt_of_ofPayload hfields

theorem timestamp_lt_of_recoverLoop {decompress : Bool} {fuel : ℕ} {bytes : Bytes}
    {records : List WalRecord} (h : codec.recoverLoop decompress fuel bytes = .ok records) :
    ∀ record ∈ records, record.timestamp < 2 ^ 64 := by
  induction fuel generalizing bytes records with
  | zero =>
      obtain rfl := Except.ok.inj h
      exact fun _ hmem => absurd hmem List.not_mem_nil
  | succ fuel ih =>
      unfold recoverLoop at h
      split at h
      · obtain rfl := Except.ok.inj h
        exact fun _ hmem => absurd hmem List.not_mem_nil
      · split at h
        · contradiction
        · split at h
          · contradiction
          · split at h
            · contradiction
            · next record hrecord =>
                cases hrest : codec.recoverLoop decompress fuel _ with
                | error e =>
                    rw [hrest] at h
                    contradiction
                | ok rest =>
                    rw [hrest] at h
                    obtain rfl := Except.ok.inj h
                    exact List.forall_mem_cons.mpr
                      ⟨timestamp_lt_of_decodeRecord hrecord, ih hrest⟩

end WalCodec

namespace SegmentFiles

variable (codec : WalCodec) (d : SegmentFiles)

/-! ## A limit is a filter -/

theorem recoverSegments_upTo (target : ℕ) (segments : List (ℕ × ℕ)) :
    d.recoverSegments codec target segments = (d.recoverSegments codec (2 ^ 64 - 1) segments).map
      (List.filter fun record => record.timestamp ≤ target) := by
  induction segments with
  | nil => rfl
  | cons e rest ih =>
      obtain ⟨segmentId, file⟩ := e
      rw [recoverSegments, recoverSegments]
      cases hrecover : codec.recover (d.read file) with
      | error failure =>
          cases failure with
          | panic => rfl
          | error e => exact ih
      | ok records =>
          have hall : records.filter (fun record => record.timestamp ≤ 2 ^ 64 - 1) = records := by
            rw [List.filter_eq_self]
            intro record hrecord
            have hlt := WalCodec.timestamp_lt_of_recoverLoop hrecover record hrecord
            exact decide_eq_true (Nat.le_pred_of_lt hlt)
          simp only [hall, ih]
          cases d.recoverSegments codec (2 ^ 64 - 1) rest with
          | error failure => rfl
          | ok others => exact congrArg Except.ok (List.filter_append records others).symm

/-- `recover_pitr` leaves out what is too new, and nothing else, whatever is in the
directories. -/
theorem recoverPitr_upTo (target : ℕ) :
    d.recoverPitr codec target = (d.recoverPitr codec (2 ^ 64 - 1)).map
      (List.filter fun record => record.timestamp ≤ target) :=
  d.recoverSegments_upTo codec target _

theorem recoverIds_from (minTimestamp : ℕ) (segments : List ℕ) :
    d.recoverIds codec minTimestamp segments = (d.recoverIds codec 0 segments).map
      (List.filter fun record => minTimestamp ≤ record.timestamp) := by
  induction segments with
  | nil => rfl
  | cons segmentId rest ih =>
      rw [recoverIds, recoverIds]
      cases d.wal.lookup segmentId with
      | none => exact ih
      | some file =>
          simp only
          cases codec.recover (d.read file) with
          | error failure =>
              cases failure with
              | panic => rfl
              | error e => exact ih
          | ok records =>
              have hall : records.filter (fun record => 0 ≤ record.timestamp) = records := by
                rw [List.filter_eq_self]
                exact fun record _ => decide_eq_true record.timestamp.zero_le
              simp only [hall, ih]
              cases d.recoverIds codec 0 rest with
              | error failure => rfl
              | ok others => exact congrArg Except.ok (List.filter_append records others).symm

theorem recoverFromTimestamp_eq (minTimestamp : ℕ) :
    d.recoverFromTimestamp codec minTimestamp = (d.recoverAll codec).map
      (List.filter fun record => minTimestamp ≤ record.timestamp) :=
  d.recoverIds_from codec minTimestamp _

end SegmentFiles

namespace Partition

variable {codec : WalCodec} {landed : List Landed} {d : SegmentFiles} {current : ℕ}
  {wal : SegmentWal}

/-- `recover_all` returns what has been appended to the segments that are not archived. -/
theorem recoverAll (hcodec : codec.Inverts) (h : Partition codec landed d current wal)
    (hbuffer : wal.buffer = []) :
    d.recoverAll codec =
      .ok ((landed.filter fun e => (d.wal.lookup e.segment).isSome).flatMap Landed.records) := by
  let kept : ℕ → Bool := fun segmentId => (d.wal.lookup segmentId).isSome
  have hperm : (d.wal.keys.insertionSort (· ≤ ·)).Perm d.wal.keys := List.perm_insertionSort _ _
  have hmem : ∀ segmentId, segmentId ∈ d.wal.keys.insertionSort (· ≤ ·) ↔
      kept segmentId = true := by
    intro segmentId
    rw [hperm.mem_iff, ← AList.mem_keys, ← AList.lookup_isSome]
  have hsorted : (d.wal.keys.insertionSort (· ≤ ·)).Pairwise (· < ·) := by
    have hle : (d.wal.keys.insertionSort (· ≤ ·)).Pairwise (· ≤ ·) := List.pairwise_insertionSort _ _
    have hne : (d.wal.keys.insertionSort (· ≤ ·)).Pairwise (· ≠ ·) :=
      hperm.nodup_iff.mpr d.wal.nodupKeys
    exact hle.imp₂ (fun _ _ => lt_of_le_of_ne) hne
  have htaken : ∀ segmentId ∈ d.wal.keys.insertionSort (· ≤ ·),
      ∃ file, d.wal.lookup segmentId = some file ∧ SegmentFiles.Yields codec d file
        (Landed.recordsIn (landed.filter fun e => kept e.segment) segmentId) := by
    intro segmentId hin
    have hkept := (hmem segmentId).mp hin
    obtain ⟨file, hlookup⟩ := Option.isSome_iff_exists.mp hkept
    have hframes := h.holds segmentId file
      (SegmentFiles.find_of_wal hlookup (h.apart segmentId file hlookup))
    rw [hbuffer, ite_self, List.append_nil] at hframes
    rw [Landed.recordsIn_filter, if_pos hkept]
    exact ⟨file, hlookup, Or.inl (WalCodec.recover_of_frames hcodec hframes)⟩
  calc d.recoverAll codec
      = .ok ((d.wal.keys.insertionSort (· ≤ ·)).flatMap
          (Landed.recordsIn (landed.filter fun e => kept e.segment))) :=
        SegmentFiles.recoverIds_eq htaken
    _ = .ok ((landed.filter fun e => kept e.segment).flatMap Landed.records) := by
        rw [h.flatMap_recordsIn kept hsorted fun segmentId _ _ hkept => (hmem segmentId).mpr hkept]

end Partition

theorem Rests.recoverAll {codec : WalCodec} {landed : List Landed} {d : SegmentFiles}
    (hcodec : codec.Inverts) (h : Rests codec landed d) :
    d.recoverAll codec =
      .ok ((landed.filter fun e => (d.wal.lookup e.segment).isSome).flatMap Landed.records) := by
  rcases h with ⟨rfl, rfl⟩ | ⟨current, wal, hbuffer, h⟩
  · rfl
  · exact h.recoverAll hcodec hbuffer

/-- Calls whose records are all left out need not be there. -/
theorem Landed.filter_records {landed : List Landed} {kept : Landed → Bool}
    {keep : WalRecord → Bool}
    (hdropped : ∀ e ∈ landed, kept e = false → ∀ record ∈ e.records, keep record = false) :
    ((landed.filter kept).flatMap records).filter keep = (landed.flatMap records).filter keep := by
  induction landed with
  | nil => rfl
  | cons e landed ih =>
      obtain ⟨hfirst, hrest⟩ := List.forall_mem_cons.mp hdropped
      cases hkept : kept e with
      | true =>
          rw [List.filter_cons_of_pos hkept, List.flatMap_cons, List.flatMap_cons,
            List.filter_append, List.filter_append, ih hrest]
      | false =>
          have hnone : e.records.filter keep = [] := by
            rw [List.filter_eq_nil_iff]
            intro record hrecord
            rw [hfirst hkept record hrecord]
            exact Bool.false_ne_true
          have hnot : ¬ kept e = true := by
            rw [hkept]
            exact Bool.false_ne_true
          rw [List.filter_cons_of_neg hnot, List.flatMap_cons, List.filter_append, hnone,
            List.nil_append, ih hrest]

namespace WalHistory

/-- After every run, what `recover_pitr` returns for a timestamp is the snapshot of what has
been appended at this timestamp; and if nothing newer is in the archive,
`recover_from_timestamp` returns what is missing. -/
theorem recoverPitr_run {codec : WalCodec} (hcodec : codec.Inverts) (steps : List WalStep)
    (hsteps : Run.Along (step codec) ReadyStep init steps)
    (hclosed : (Run.run (step codec) init steps).system.manager = none) :
    let h := Run.run (step codec) init steps
    ∃ landed : List Landed, h.Ordered landed ∧
      ∀ target, ∃ records, h.system.files.recoverPitr codec target = .ok records ∧
        (∀ keyData ts, (MemTable.new.replay records).getAtTs keyData ts =
          (MemTable.new.replay (landed.flatMap Landed.records)).getAtTs keyData (min ts target)) ∧
        ((∀ e ∈ landed, h.system.files.wal.lookup e.segment = none →
            ∀ record ∈ e.records, record.timestamp ≤ target) →
          ∃ later, h.system.files.recoverFromTimestamp codec (target + 1) = .ok later ∧
            ∀ keyData ts, ((MemTable.new.replay records).replay later).getAtTs keyData ts =
              (MemTable.new.replay (landed.flatMap Landed.records)).getAtTs keyData ts) := by
  intro h
  obtain ⟨landed, hsound⟩ := sound_run codec hsteps
  have hstored := hsound.stored
  -- all is in files, since no manager is open
  rw [Stored, hclosed] at hstored
  obtain ⟨hrests, -⟩ := hstored
  refine ⟨landed, hsound.ordered, fun target => ?_⟩
  refine ⟨(landed.flatMap Landed.records).filter fun record => record.timestamp ≤ target, ?_, ?_, ?_⟩
  · rw [SegmentFiles.recoverPitr_upTo, hrests.recoverPitr hcodec]
    rfl
  · exact fun keyData ts => MemTable.getAtTs_replay_upTo _ target keyData ts
  -- a segment that was archived holds nothing that is asked for
  · intro harchived
    refine ⟨(landed.flatMap Landed.records).filter fun record => target + 1 ≤ record.timestamp, ?_,
      fun keyData ts => MemTable.getAtTs_replay_catchUp _ target keyData ts⟩
    rw [SegmentFiles.recoverFromTimestamp_eq, hrests.recoverAll hcodec]
    refine congrArg Except.ok (Landed.filter_records ?_)
    intro e he hnone record hrecord
    have hgone : h.system.files.wal.lookup e.segment = none :=
      Option.isNone_iff_eq_none.mp (Option.isSome_eq_false_iff.mp hnone)
    have hle := harchived e he hgone record hrecord
    exact decide_eq_false (by omega)

/-- With two of the three segments in the archive, up to the timestamp of the second record. -/
theorem recoverPitr_twoSessions :
    let h := Run.run (step storingCodec) init (twoSessions 0)
    ∃ landed : List Landed, h.Ordered landed ∧
      ∀ target, ∃ records, h.system.files.recoverPitr storingCodec target = .ok records ∧
        (∀ keyData ts, (MemTable.new.replay records).getAtTs keyData ts =
          (MemTable.new.replay (landed.flatMap Landed.records)).getAtTs keyData (min ts target)) ∧
        ((∀ e ∈ landed, h.system.files.wal.lookup e.segment = none →
            ∀ record ∈ e.records, record.timestamp ≤ target) →
          ∃ later, h.system.files.recoverFromTimestamp storingCodec (target + 1) = .ok later ∧
            ∀ keyData ts, ((MemTable.new.replay records).replay later).getAtTs keyData ts =
              (MemTable.new.replay (landed.flatMap Landed.records)).getAtTs keyData ts) :=
  recoverPitr_run inverts_storingCodec (twoSessions 0) (by decide +kernel) (by decide +kernel)

/-- The first session has archived the first two records, and `recover_all` does not find
them. -/
example : (runOf (twoSessions 0)).system.files.recoverAll storingCodec = .ok [recordNumber 2] := by
  decide +kernel

end WalHistory
end Crabstash

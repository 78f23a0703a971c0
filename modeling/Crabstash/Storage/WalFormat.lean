import Crabstash.Common.Error
import Crabstash.Foundations.LittleEndian
import Crabstash.Storage.Wal

/-!
# The bytes of a log

A record is written as a checksum, a length and a body: a byte for its type, which also
says whether the rest is compressed, and then the timestamp, the key and the value, each
with its length in front.  Lengths are cut to 32 bits.

Writer and reader disagree on when there is a value: one looks whether the record has one,
the other at its type.  For records where this is the same, and that are not too long
(`WellFormed`), what is read is what was written (`recover_of_frames`).

The checksum and the compression are those of other crates.  Of the checksum nothing is
used; of the compression, that it can be undone (`WalCodec.Inverts`).
-/

namespace Crabstash

open LittleEndian

/-- `crc32fast::hash` and the two functions of `lz4_flex`. -/
structure WalCodec where
  crc32 : Bytes → UInt32
  compress : Bytes → Bytes
  decompress : Bytes → Except String Bytes

/-- Decompression inverts compression. -/
def WalCodec.Inverts (codec : WalCodec) : Prop :=
  ∀ payload, payload.length < 2 ^ 32 → codec.decompress (codec.compress payload) = .ok payload

/-- How reading a log ends early. -/
inductive WalFailure where
  | error (e : Error)
  | panic
  deriving DecidableEq, Repr

namespace RecordType

/-- The number of the type in the file. -/
def byte : RecordType → UInt8
  | put => 1
  | delete => 2

/-- `COMPRESSION_FLAG`. -/
def compressionFlag : UInt8 := 0x80

/-- `RecordType::try_from`. -/
def tryFrom (value : UInt8) : Except Error RecordType :=
  if value &&& ~~~compressionFlag = 1 then .ok put
  else if value &&& ~~~compressionFlag = 2 then .ok delete
  else .error (.corruption ("Invalid record type: " ++ toString value.toNat))

theorem tryFrom_byte (recordType : RecordType) : tryFrom recordType.byte = .ok recordType := by
  cases recordType <;> rfl

theorem tryFrom_byte_or (recordType : RecordType) :
    tryFrom (recordType.byte ||| compressionFlag) = .ok recordType := by
  cases recordType <;> rfl

theorem byte_and (recordType : RecordType) : recordType.byte &&& compressionFlag = 0 := by
  cases recordType <;> rfl

theorem byte_or_and (recordType : RecordType) :
    (recordType.byte ||| compressionFlag) &&& compressionFlag ≠ 0 := by
  cases recordType <;> decide

end RecordType

namespace WalRecord

/-- The part of a record that may be compressed. -/
def payload (record : WalRecord) : Bytes :=
  toLE 8 record.timestamp ++ (toLE 4 record.key.length ++ (record.key ++
    match record.value with
    | some value => toLE 4 value.length ++ value
    | none => []))

/-- The reader takes the record for what it is. -/
structure WellFormed (record : WalRecord) : Prop where
  value : record.value.isSome = true ↔ record.recordType = .put
  timestamp : record.timestamp < 2 ^ 64
  length : record.payload.length + 1 < 2 ^ 32

instance (record : WalRecord) : Decidable record.WellFormed :=
  decidable_of_iff ((record.value.isSome = true ↔ record.recordType = .put) ∧
    record.timestamp < 2 ^ 64 ∧ record.payload.length + 1 < 2 ^ 32)
    ⟨fun h => ⟨h.1, h.2.1, h.2.2⟩, fun h => ⟨h.value, h.timestamp, h.length⟩⟩

/-- The fields behind the type; none stands for a panic. -/
def ofPayload (recordType : RecordType) (payload : Bytes) : Option WalRecord := do
  let timestamp ← readLE 8 payload
  let keyLen ← readLE 4 timestamp.2
  let key ← splitAt? keyLen.1 keyLen.2
  match recordType with
  | .put =>
      let valueLen ← readLE 4 key.2
      let value ← splitAt? valueLen.1 valueLen.2
      return { recordType, key := key.1, value := some value.1, timestamp := timestamp.1 }
  | .delete => return { recordType, key := key.1, value := none, timestamp := timestamp.1 }

theorem ofPayload_payload {record : WalRecord} (h : record.WellFormed) :
    ofPayload record.recordType record.payload = some record := by
  obtain ⟨recordType, key, value, timestamp⟩ := record
  obtain ⟨hvalue, hbound, hlength⟩ := h
  have htimestamp : timestamp < 256 ^ 8 := by simpa using hbound
  have hkey : key.length < 256 ^ 4 := by
    simp only [payload, List.length_append, length_toLE] at hlength
    omega
  cases recordType with
  | put =>
      obtain ⟨value, rfl⟩ : ∃ v, value = some v := Option.isSome_iff_exists.mp (hvalue.mpr rfl)
      have hvalueLen : value.length < 256 ^ 4 := by
        simp only [payload, List.length_append, length_toLE] at hlength
        omega
      simp [ofPayload, payload, readLE_toLE htimestamp, readLE_toLE hkey, readLE_toLE hvalueLen,
        splitAt?_append, splitAt?_length]
  | delete =>
      obtain rfl : value = none := by
        rw [← Option.not_isSome_iff_eq_none]
        intro hsome
        exact absurd (hvalue.mp hsome) RecordType.noConfusion
      simp [ofPayload, payload, readLE_toLE htimestamp, readLE_toLE hkey, splitAt?_length]

end WalRecord

namespace WalCodec

variable (codec : WalCodec)

/-- `COMPRESSION_THRESHOLD`. -/
def compressionThreshold : ℕ := 64

/-- `encode_record`. -/
def encodeRecord (enableCompression : Bool) (record : WalRecord) : Bytes :=
  let payload := record.payload
  let compressed := codec.compress payload
  if enableCompression ∧ compressionThreshold ≤ payload.length ∧
      compressed.length < payload.length then
    (record.recordType.byte ||| RecordType.compressionFlag) :: compressed
  else record.recordType.byte :: payload

/-- What is written for the bytes of a record. -/
def frame (body : Bytes) : Bytes :=
  toLE 4 (codec.crc32 body).toNat ++ (toLE 4 body.length ++ body)

/-- The record with these bytes. -/
def decodeRecord (decompress : Bool) : Bytes → Except WalFailure WalRecord
  -- `data[0]`
  | [] => .error .panic
  | recordTypeByte :: data =>
      match RecordType.tryFrom recordTypeByte with
      | .error e => .error (.error e)
      | .ok recordType =>
          let payload :=
            if recordTypeByte &&& RecordType.compressionFlag ≠ 0 ∧ decompress then
              codec.decompress data
            else .ok data
          match payload with
          | .error e => .error (.error (.corruption ("WAL decompression failed: " ++ e)))
          | .ok payload =>
              match WalRecord.ofPayload recordType payload with
              | none => .error .panic
              | some record => .ok record

/-- The loop of `recover`. -/
def recoverLoop (decompress : Bool) : ℕ → Bytes → Except WalFailure (List WalRecord)
  | 0, _ => .ok []
  | fuel + 1, bytes =>
      match splitAt? 8 bytes with
      -- `UnexpectedEof` on the header ends the loop
      | none => .ok []
      | some header =>
          match splitAt? (ofLE (header.1.drop 4)) header.2 with
          -- on the body it is passed on
          | none => .error (.error .io)
          | some body =>
              if (codec.crc32 body.1).toNat ≠ ofLE (header.1.take 4) then
                .error (.error (.corruption "WAL checksum mismatch"))
              else
                match codec.decodeRecord decompress body.1 with
                | .error e => .error e
                | .ok record => (recoverLoop decompress fuel body.2).map (record :: ·)

/-- `recover_with_compression`, on the content of the file; every round takes eight bytes. -/
def recoverWithCompression (decompress : Bool) (bytes : Bytes) :
    Except WalFailure (List WalRecord) := codec.recoverLoop decompress bytes.length bytes

/-- `recover`. -/
def recover (bytes : Bytes) : Except WalFailure (List WalRecord) :=
  codec.recoverWithCompression true bytes

/-! ## Reading what was written -/

variable {codec}

/-- A record is compressed only if that makes it shorter. -/
theorem length_encodeRecord_le (codec : WalCodec) (enableCompression : Bool) (record : WalRecord) :
    (codec.encodeRecord enableCompression record).length ≤ 1 + record.payload.length := by
  unfold encodeRecord
  simp only
  split
  · next hsmaller =>
      rw [List.length_cons]
      omega
  · rw [List.length_cons]
    omega

theorem length_encodeRecord_lt (codec : WalCodec) (enableCompression : Bool) {record : WalRecord}
    (h : record.WellFormed) : (codec.encodeRecord enableCompression record).length < 2 ^ 32 := by
  have hlength := h.length
  have hle := length_encodeRecord_le codec enableCompression record
  omega

theorem decodeRecord_encodeRecord (hcodec : codec.Inverts) (enableCompression : Bool)
    {record : WalRecord} (h : record.WellFormed) :
    codec.decodeRecord true (codec.encodeRecord enableCompression record) = .ok record := by
  have hlength : record.payload.length < 2 ^ 32 := by
    have := h.length
    omega
  unfold encodeRecord
  simp only
  split
  · simp only [decodeRecord, RecordType.tryFrom_byte_or]
    rw [if_pos ⟨RecordType.byte_or_and _, trivial⟩, hcodec record.payload hlength]
    simp only [WalRecord.ofPayload_payload h]
  · simp only [decodeRecord, RecordType.tryFrom_byte]
    rw [if_neg fun hflag => hflag.1 (RecordType.byte_and _)]
    simp only [WalRecord.ofPayload_payload h]

/-- The bytes are those of the records, each compressed or not. -/
inductive Frames (codec : WalCodec) : Bytes → List WalRecord → Prop
  | nil : Frames codec [] []
  | cons (enableCompression : Bool) {record : WalRecord} (hrecord : record.WellFormed)
      {bytes : Bytes} {records : List WalRecord} (hrest : Frames codec bytes records) :
      Frames codec (codec.frame (codec.encodeRecord enableCompression record) ++ bytes)
        (record :: records)

theorem Frames.append {bytes bytes' : Bytes} {records records' : List WalRecord}
    (h : Frames codec bytes records) (h' : Frames codec bytes' records') :
    Frames codec (bytes ++ bytes') (records ++ records') := by
  induction h with
  | nil => exact h'
  | cons enableCompression hrecord _ ih =>
      rw [List.append_assoc, List.cons_append]
      exact ih.cons enableCompression hrecord

/-- A round of the loop on a frame: the header is the one that was written. -/
theorem recoverLoop_frame_append (decompress : Bool) {body : Bytes} (hbody : body.length < 2 ^ 32)
    (fuel : ℕ) (rest : Bytes) :
    codec.recoverLoop decompress (fuel + 1) (codec.frame body ++ rest) =
      match codec.decodeRecord decompress body with
      | .error e => .error e
      | .ok record => (codec.recoverLoop decompress fuel rest).map (record :: ·) := by
  have hheader : splitAt? 8 (codec.frame body ++ rest) =
      some (toLE 4 (codec.crc32 body).toNat ++ toLE 4 body.length, body ++ rest) := by
    have hshape : codec.frame body ++ rest =
        (toLE 4 (codec.crc32 body).toNat ++ toLE 4 body.length) ++ (body ++ rest) := by
      simp [frame]
    rw [hshape]
    exact splitAt?_append (by simp) _
  have hcrc : ofLE (toLE 4 (codec.crc32 body).toNat) = (codec.crc32 body).toNat := by
    apply ofLE_toLE_of_lt
    exact (codec.crc32 body).toNat_lt
  have hlen : ofLE (toLE 4 body.length) = body.length := ofLE_toLE_of_lt (by simpa using hbody)
  have htake : (toLE 4 (codec.crc32 body).toNat ++ toLE 4 body.length).take 4 =
      toLE 4 (codec.crc32 body).toNat := List.take_left' (length_toLE 4 _)
  have hdrop : (toLE 4 (codec.crc32 body).toNat ++ toLE 4 body.length).drop 4 =
      toLE 4 body.length := List.drop_left' (length_toLE 4 _)
  rw [recoverLoop, hheader]
  simp only [htake, hdrop, hcrc, hlen, splitAt?_append, ne_eq, not_true_eq_false, if_false]

/-- A round of the loop takes one record. -/
theorem recoverLoop_frame (hcodec : codec.Inverts) (enableCompression : Bool) {record : WalRecord}
    (h : record.WellFormed) (fuel : ℕ) (rest : Bytes) :
    codec.recoverLoop true (fuel + 1)
        (codec.frame (codec.encodeRecord enableCompression record) ++ rest) =
      (codec.recoverLoop true fuel rest).map (record :: ·) := by
  rw [recoverLoop_frame_append true (codec.length_encodeRecord_lt enableCompression h),
    decodeRecord_encodeRecord hcodec enableCompression h]

theorem eight_le_length_frame (codec : WalCodec) (body : Bytes) : 8 ≤ (codec.frame body).length := by
  simp only [frame, List.length_append, length_toLE]
  omega

theorem recoverLoop_of_frames (hcodec : codec.Inverts) {bytes : Bytes} {records : List WalRecord}
    (h : Frames codec bytes records) {fuel : ℕ} (hfuel : bytes.length ≤ fuel) :
    codec.recoverLoop true fuel bytes = .ok records := by
  induction h generalizing fuel with
  | nil => cases fuel <;> rfl
  | @cons enableCompression record hrecord bytes records hrest ih =>
      rw [List.length_append] at hfuel
      have hframe := codec.eight_le_length_frame (codec.encodeRecord enableCompression record)
      cases fuel with
      | zero => omega
      | succ fuel =>
          rw [recoverLoop_frame hcodec enableCompression hrecord, ih (by omega)]
          rfl

/-- What is read is what was written. -/
theorem recover_of_frames (hcodec : codec.Inverts) {bytes : Bytes} {records : List WalRecord}
    (h : Frames codec bytes records) : codec.recover bytes = .ok records :=
  recoverLoop_of_frames hcodec h le_rfl

theorem Frames.wellFormed {bytes : Bytes} {records : List WalRecord}
    (h : Frames codec bytes records) : ∀ record ∈ records, record.WellFormed := by
  induction h with
  | nil => exact fun _ hmem => absurd hmem List.not_mem_nil
  | cons enableCompression hrecord _ ih => exact List.forall_mem_cons.mpr ⟨hrecord, ih⟩

end WalCodec
end Crabstash

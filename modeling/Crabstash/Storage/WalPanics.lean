import Crabstash.Storage.WalHistory

/-!
# Where reading a log panics

Every length in the log comes from the file.  Two of them are checked: a missing header ends
the replay, and a body that is cut short is an input error.  Behind the checksum nothing is
checked.  `data[0]` panics on an empty body, whose checksum is zero, so that eight zero
bytes are a frame; and the buffer reads panic where the payload is shorter than the
timestamp, the two lengths and what they announce.

The frames that matter are those the reader reaches: the ones before have been taken.  The
replay panics exactly if one of these has a body that cannot be read so (`Readable`).
-/

namespace Crabstash

open LittleEndian

namespace WalRecord

/-- The length of the key, behind the timestamp. -/
def keyLen (payload : Bytes) : ℕ := ofLE ((payload.drop 8).take 4)

/-- The length of the value, behind the key. -/
def valueLen (payload : Bytes) : ℕ := ofLE ((payload.drop (12 + keyLen payload)).take 4)

/-- There is as much in the payload as its lengths say. -/
structure Fits (recordType : RecordType) (payload : Bytes) : Prop where
  key : 12 + keyLen payload ≤ payload.length
  value : recordType = .put → 16 + keyLen payload + valueLen payload ≤ payload.length

/-- The fields are read from the places where `Fits` looks for them. -/
theorem ofPayload_eq (recordType : RecordType) {payload : Bytes} (hlength : 12 ≤ payload.length) :
    ofPayload recordType payload =
      (splitAt? (keyLen payload) (payload.drop 12)).bind fun key =>
        match recordType with
        | .put =>
            (readLE 4 key.2).bind fun valueLen =>
              (splitAt? valueLen.1 valueLen.2).bind fun value =>
                some { recordType := .put, key := key.1, value := some value.1,
                       timestamp := ofLE (payload.take 8) }
        | .delete => some { recordType := .delete, key := key.1, value := none,
                            timestamp := ofLE (payload.take 8) } := by
  have hlen : 4 ≤ (payload.drop 8).length := by
    rw [List.length_drop]
    omega
  unfold ofPayload
  rw [readLE_of_le (by omega : 8 ≤ payload.length)]
  simp only [Option.bind_eq_bind, Option.bind_some, readLE_of_le hlen, List.drop_drop]
  cases recordType <;> rfl

theorem ofPayload_of_short (recordType : RecordType) {payload : Bytes}
    (hshort : payload.length < 12) : ofPayload recordType payload = none := by
  unfold ofPayload
  by_cases height : 8 ≤ payload.length
  · have hlen : (payload.drop 8).length < 4 := by
      rw [List.length_drop]
      omega
    rw [readLE_of_le height]
    simp only [Option.bind_eq_bind, Option.bind_some, readLE_of_lt hlen, Option.bind_none]
  · rw [readLE_of_lt (not_le.mp height)]
    rfl

/-- The buffer reads panic exactly if the payload is too short for what it announces. -/
theorem ofPayload_eq_none_iff {recordType : RecordType} {payload : Bytes} :
    ofPayload recordType payload = none ↔ ¬Fits recordType payload := by
  -- timestamp and key length, then the key, the value length and the value
  by_cases hlength : 12 ≤ payload.length
  swap
  · refine iff_of_true (ofPayload_of_short recordType (not_le.mp hlength)) fun h => ?_
    have := h.key
    omega
  rw [ofPayload_eq recordType hlength]
  by_cases hkey : keyLen payload ≤ (payload.drop 12).length
  swap
  · rw [splitAt?, if_neg hkey]
    refine iff_of_true rfl fun h => hkey ?_
    have := h.key
    rw [List.length_drop]
    omega
  rw [splitAt?, if_pos hkey, Option.bind_some]
  rw [List.length_drop] at hkey
  cases recordType with
  | delete =>
      refine iff_of_false (by simp) (not_not.mpr ⟨by omega, ?_⟩)
      intro heq
      contradiction
  | put =>
      simp only [List.drop_drop]
      by_cases hlen : 4 ≤ (payload.drop (12 + keyLen payload)).length
      swap
      · rw [readLE_of_lt (not_le.mp hlen)]
        refine iff_of_true rfl fun h => hlen ?_
        have := h.value rfl
        rw [List.length_drop]
        omega
      rw [readLE_of_le hlen, Option.bind_some]
      rw [List.length_drop] at hlen
      have hvalueLen : ofLE ((payload.drop (12 + keyLen payload)).take 4) = valueLen payload := rfl
      simp only [hvalueLen, List.drop_drop]
      by_cases hvalue : valueLen payload ≤ (payload.drop (12 + keyLen payload + 4)).length
      · rw [splitAt?, if_pos hvalue]
        rw [List.length_drop] at hvalue
        exact iff_of_false (by simp) (not_not.mpr ⟨by omega, fun _ => by omega⟩)
      · rw [splitAt?, if_neg hvalue]
        refine iff_of_true rfl fun h => hvalue ?_
        have := h.value rfl
        rw [List.length_drop]
        omega

theorem fits_of_ofPayload {recordType : RecordType} {payload : Bytes} {record : WalRecord}
    (h : ofPayload recordType payload = some record) : Fits recordType payload := by
  by_contra hfits
  rw [ofPayload_eq_none_iff.mpr hfits] at h
  contradiction

end WalRecord

namespace WalCodec

variable (codec : WalCodec)

/-- What is read of a body: its type, and the payload after decompression. -/
def ReadsAs (decompress : Bool) (body : Bytes) (recordType : RecordType) (payload : Bytes) :
    Prop :=
  ∃ recordTypeByte data, body = recordTypeByte :: data ∧
    RecordType.tryFrom recordTypeByte = .ok recordType ∧
    (if recordTypeByte &&& RecordType.compressionFlag ≠ 0 ∧ decompress then codec.decompress data
      else .ok data) = .ok payload

/-- There is a type, and if it is valid and the payload can be decompressed, the payload is
as long as it says. -/
def Readable (decompress : Bool) (body : Bytes) : Prop :=
  body ≠ [] ∧ ∀ recordType payload, codec.ReadsAs decompress body recordType payload →
    WalRecord.Fits recordType payload

/-- The bodies that the reader comes to: the whole frames with the right checksum, as long
as the frames before are records. -/
inductive Reaches (decompress : Bool) : Bytes → Bytes → Prop
  | here {body : Bytes} (hbody : body.length < 2 ^ 32) (rest : Bytes) :
      Reaches decompress (codec.frame body ++ rest) body
  | later {body : Bytes} (hbody : body.length < 2 ^ 32) {recordType : RecordType} {payload : Bytes}
      (hreads : codec.ReadsAs decompress body recordType payload)
      (hfits : WalRecord.Fits recordType payload) {rest body' : Bytes}
      (hrest : Reaches decompress rest body') :
      Reaches decompress (codec.frame body ++ rest) body'

variable {codec}

/-! ## A body -/

theorem decodeRecord_cases (codec : WalCodec) (decompress : Bool) (body : Bytes) :
    (body = [] ∧ codec.decodeRecord decompress body = .error .panic) ∨
    ((∀ recordType payload, ¬codec.ReadsAs decompress body recordType payload) ∧
      body ≠ [] ∧ ∃ e, codec.decodeRecord decompress body = .error (.error e)) ∨
    ∃ recordType payload, codec.ReadsAs decompress body recordType payload ∧
      (∀ recordType' payload', codec.ReadsAs decompress body recordType' payload' →
        recordType' = recordType ∧ payload' = payload) ∧
      codec.decodeRecord decompress body =
        match WalRecord.ofPayload recordType payload with
        | none => .error .panic
        | some record => .ok record := by
  cases body with
  | nil => exact Or.inl ⟨rfl, rfl⟩
  | cons recordTypeByte data =>
      refine Or.inr ?_
      rw [decodeRecord]
      -- the type byte decides first, then the decompression
      cases htype : RecordType.tryFrom recordTypeByte with
      | error e =>
          refine Or.inl ⟨?_, List.cons_ne_nil _ _, e, rfl⟩
          rintro recordType payload ⟨typeByte, data', heq, htype', -⟩
          cases heq
          rw [htype] at htype'
          contradiction
      | ok recordType =>
          simp only
          cases hpayload : (if recordTypeByte &&& RecordType.compressionFlag ≠ 0 ∧ decompress
              then codec.decompress data else .ok data) with
          | error e =>
              refine Or.inl ⟨?_, List.cons_ne_nil _ _, _, rfl⟩
              rintro recordType' payload ⟨typeByte, data', heq, -, hpayload'⟩
              cases heq
              rw [hpayload] at hpayload'
              contradiction
          | ok payload =>
              refine Or.inr ⟨recordType, payload, ⟨_, _, rfl, htype, hpayload⟩, ?_, rfl⟩
              rintro recordType' payload' ⟨typeByte, data', heq, htype', hpayload'⟩
              cases heq
              rw [htype] at htype'
              rw [hpayload] at hpayload'
              cases htype'
              cases hpayload'
              exact ⟨rfl, rfl⟩

theorem decodeRecord_ne_panic_iff (codec : WalCodec) (decompress : Bool) (body : Bytes) :
    codec.decodeRecord decompress body ≠ .error .panic ↔ codec.Readable decompress body := by
  rcases codec.decodeRecord_cases decompress body with
    ⟨rfl, hdecode⟩ | ⟨hnone, hne, e, hdecode⟩ | ⟨recordType, payload, hreads, hunique, hdecode⟩
  · exact iff_of_false (not_not.mpr hdecode) fun h => h.1 rfl
  · refine iff_of_true ?_ ⟨hne, fun recordType payload h => absurd h (hnone recordType payload)⟩
    rw [hdecode]
    simp
  · rw [hdecode]
    cases hrecord : WalRecord.ofPayload recordType payload with
    | none =>
        refine iff_of_false (not_not.mpr rfl) fun h => ?_
        exact WalRecord.ofPayload_eq_none_iff.mp hrecord (h.2 recordType payload hreads)
    | some record =>
        have hfits := WalRecord.fits_of_ofPayload hrecord
        refine iff_of_true (by simp) ⟨?_, ?_⟩
        · obtain ⟨_, _, rfl, -⟩ := hreads
          exact List.cons_ne_nil _ _
        · intro recordType' payload' h
          obtain ⟨rfl, rfl⟩ := hunique recordType' payload' h
          exact hfits

/-- A body that is taken for a record fits. -/
theorem decodeRecord_ok_iff {decompress : Bool} {body : Bytes} :
    (∃ record, codec.decodeRecord decompress body = .ok record) ↔
      ∃ recordType payload, codec.ReadsAs decompress body recordType payload ∧
        WalRecord.Fits recordType payload := by
  rcases codec.decodeRecord_cases decompress body with
    ⟨rfl, hdecode⟩ | ⟨hnone, -, e, hdecode⟩ | ⟨recordType, payload, hreads, hunique, hdecode⟩
  · refine iff_of_false ?_ ?_
    · rintro ⟨record, h⟩
      cases hdecode.symm.trans h
    · rintro ⟨recordType, payload, ⟨_, _, heq, -⟩, -⟩
      cases heq
  · refine iff_of_false ?_ ?_
    · rintro ⟨record, h⟩
      cases hdecode.symm.trans h
    · rintro ⟨recordType, payload, hreads, -⟩
      exact hnone recordType payload hreads
  · have hfits : WalRecord.Fits recordType payload ↔
        ∃ recordType payload, codec.ReadsAs decompress body recordType payload ∧
          WalRecord.Fits recordType payload := by
      constructor
      · intro h
        exact ⟨recordType, payload, hreads, h⟩
      · rintro ⟨recordType', payload', hreads', h⟩
        obtain ⟨rfl, rfl⟩ := hunique recordType' payload' hreads'
        exact h
    rw [← hfits, hdecode]
    cases hrecord : WalRecord.ofPayload recordType payload with
    | none =>
        refine iff_of_false ?_ (WalRecord.ofPayload_eq_none_iff.mp hrecord)
        rintro ⟨record, h⟩
        contradiction
    | some record => exact iff_of_true ⟨record, rfl⟩ (WalRecord.fits_of_ofPayload hrecord)

/-! ## The frames of a file -/

theorem frame_append_inj {body body' rest rest' : Bytes} (hbody : body.length < 2 ^ 32)
    (hbody' : body'.length < 2 ^ 32)
    (heq : codec.frame body ++ rest = codec.frame body' ++ rest') : body = body' ∧ rest = rest' := by
  simp only [frame, List.append_assoc] at heq
  obtain ⟨-, htail⟩ := List.append_inj heq (by simp)
  obtain ⟨hlen, htail⟩ := List.append_inj htail (by simp)
  have hlength : body.length = body'.length := by
    have := congrArg ofLE hlen
    rwa [ofLE_toLE_of_lt (by simpa using hbody), ofLE_toLE_of_lt (by simpa using hbody')] at this
  exact List.append_inj htail hlength

/-- What is behind the first frame is reached if the frame is a record. -/
theorem reaches_frame_iff {decompress : Bool} {body rest body' : Bytes}
    (hbody : body.length < 2 ^ 32) :
    codec.Reaches decompress (codec.frame body ++ rest) body' ↔
      body' = body ∨ (∃ record, codec.decodeRecord decompress body = .ok record) ∧
        codec.Reaches decompress rest body' := by
  rw [decodeRecord_ok_iff]
  constructor
  · intro h
    generalize heq : codec.frame body ++ rest = bytes at h
    cases h with
    | here hbody' rest' =>
        obtain ⟨rfl, -⟩ := frame_append_inj hbody hbody' heq
        exact Or.inl rfl
    | later hbody' hreads hfits hrest =>
        obtain ⟨rfl, rfl⟩ := frame_append_inj hbody hbody' heq
        exact Or.inr ⟨⟨_, _, hreads, hfits⟩, hrest⟩
  · rintro (rfl | ⟨⟨recordType, payload, hreads, hfits⟩, hrest⟩)
    · exact .here hbody rest
    · exact .later hbody hreads hfits hrest

/-- A header that is followed by enough bytes with its checksum starts a frame. -/
theorem eq_frame_append {bytes : Bytes} {header body : Bytes × Bytes}
    (hheader : splitAt? 8 bytes = some header)
    (hbody : splitAt? (ofLE (header.1.drop 4)) header.2 = some body)
    (hcrc : (codec.crc32 body.1).toNat = ofLE (header.1.take 4)) :
    body.1.length < 2 ^ 32 ∧ bytes = codec.frame body.1 ++ body.2 := by
  obtain ⟨hbytes, hheaderLen⟩ := splitAt?_eq_some hheader
  obtain ⟨hrest, hbodyLen⟩ := splitAt?_eq_some hbody
  have htake : (header.1.take 4).length = 4 := by
    rw [List.length_take]
    omega
  have hdrop : (header.1.drop 4).length = 4 := by
    rw [List.length_drop]
    omega
  have hcrcField : toLE 4 (codec.crc32 body.1).toNat = header.1.take 4 := by
    have := toLE_ofLE (header.1.take 4)
    rwa [htake, ← hcrc] at this
  have hlenField : toLE 4 body.1.length = header.1.drop 4 := by
    have := toLE_ofLE (header.1.drop 4)
    rwa [hdrop, ← hbodyLen] at this
  constructor
  · have := ofLE_lt (header.1.drop 4)
    rw [hdrop] at this
    rw [hbodyLen]
    simpa using this
  · calc bytes = header.1 ++ header.2 := hbytes
      _ = (header.1.take 4 ++ header.1.drop 4) ++ (body.1 ++ body.2) := by
          rw [List.take_append_drop, hrest]
      _ = codec.frame body.1 ++ body.2 := by
          rw [frame, hcrcField, hlenField]
          simp only [List.append_assoc]

/-- With no frame at the front the replay ends, in one way or the other. -/
theorem recoverLoop_of_no_frame (decompress : Bool) (fuel : ℕ) {bytes : Bytes}
    (hnone : ∀ body rest, body.length < 2 ^ 32 → bytes ≠ codec.frame body ++ rest) :
    codec.recoverLoop decompress fuel bytes ≠ .error .panic := by
  cases fuel with
  | zero => simp [recoverLoop]
  | succ fuel =>
      rw [recoverLoop]
      cases hheader : splitAt? 8 bytes with
      | none => simp
      | some header =>
          simp only
          cases hbody : splitAt? (ofLE (header.1.drop 4)) header.2 with
          | none => simp
          | some body =>
              simp only
              split
              · simp
              · next hcrc =>
                  obtain ⟨hlength, hbytes⟩ := eq_frame_append hheader hbody (not_not.mp hcrc)
                  exact absurd hbytes (hnone body.1 body.2 hlength)

/-! ## The replay -/

theorem recoverLoop_ne_panic_iff {decompress : Bool} {fuel : ℕ} {bytes : Bytes}
    (hfuel : bytes.length ≤ fuel) :
    codec.recoverLoop decompress fuel bytes ≠ .error .panic ↔
      ∀ body, codec.Reaches decompress bytes body → codec.Readable decompress body := by
  induction fuel generalizing bytes with
  | zero =>
      have hnil : bytes = [] := List.eq_nil_of_length_eq_zero (by omega)
      refine iff_of_true (by simp [recoverLoop]) fun body hreaches => ?_
      exfalso
      cases hreaches with
      | here hbody rest =>
          have := congrArg List.length hnil
          simp [frame] at this
      | later hbody hreads hfits hrest =>
          have := congrArg List.length hnil
          simp [frame] at this
  | succ fuel ih =>
      by_cases hframe : ∃ body rest, body.length < 2 ^ 32 ∧ bytes = codec.frame body ++ rest
      -- where no whole frame with its checksum stands, the reader stops or reports it
      swap
      · refine iff_of_true (recoverLoop_of_no_frame decompress (fuel + 1) ?_) ?_
        · intro body rest hbody heq
          exact hframe ⟨body, rest, hbody, heq⟩
        · intro body hreaches
          exfalso
          cases hreaches with
          | here hbody rest => exact hframe ⟨_, _, hbody, rfl⟩
          | later hbody hreads hfits hrest => exact hframe ⟨_, _, hbody, rfl⟩
      obtain ⟨body, rest, hbody, rfl⟩ := hframe
      have hrest : rest.length ≤ fuel := by
        have := codec.eight_le_length_frame body
        rw [List.length_append] at hfuel
        omega
      have hreadable := codec.decodeRecord_ne_panic_iff decompress body
      rw [recoverLoop_frame_append decompress hbody]
      simp only [reaches_frame_iff hbody]
      cases hdecode : codec.decodeRecord decompress body with
      | ok record =>
          rw [hdecode] at hreadable
          have hmap : (codec.recoverLoop decompress fuel rest).map (record :: ·)
              ≠ .error .panic ↔ codec.recoverLoop decompress fuel rest ≠ .error .panic := by
            cases codec.recoverLoop decompress fuel rest <;> simp [Except.map]
          -- the record is put in front of what the rest gives
          rw [hmap, ih hrest]
          constructor
          · rintro h body' (rfl | ⟨-, hreaches⟩)
            · exact hreadable.mp (by simp)
            · exact h body' hreaches
          · intro h body' hreaches
            exact h body' (Or.inr ⟨⟨record, rfl⟩, hreaches⟩)
      | error failure =>
          rw [hdecode] at hreadable
          -- the reader comes no further than this frame
          simp only [ne_eq, Except.error.injEq] at hreadable ⊢
          constructor
          · rintro h body' (rfl | ⟨⟨record, hrecord⟩, -⟩)
            · exact hreadable.mp h
            · contradiction
          · intro h
            exact hreadable.mpr (h body (Or.inl rfl))

/-- Reading a log panics on no file whose frames, as far as the reader comes, have a type
and, where they have a valid one, as much behind it as they announce; and on every other. -/
theorem recoverWithCompression_ne_panic_iff (codec : WalCodec) (decompress : Bool) (bytes : Bytes) :
    codec.recoverWithCompression decompress bytes ≠ .error .panic ↔
      ∀ body, codec.Reaches decompress bytes body → codec.Readable decompress body :=
  recoverLoop_ne_panic_iff le_rfl

/-- Eight zero bytes are a frame with an empty body. -/
theorem recover_zeros_panics :
    ¬∀ (codec : WalCodec) (decompress : Bool) (bytes : Bytes),
      codec.recoverWithCompression decompress bytes ≠ .error .panic := by
  intro h
  exact h WalHistory.storingCodec true (List.replicate 8 0) (by decide +kernel)

end WalCodec
end Crabstash

import Crabstash.Storage.WalHistory

/-!
# A log cut short

A crash in the middle of a write leaves a prefix of the file.  The reader meets the torn
record either with no full header before it, which it takes for the end of the log, or with
the header there and the body cut short.  That it takes for a failure, and it gives no
records at all.  So the prefix is read, and read as the records wholly inside it, exactly
if fewer than eight bytes of the torn record are left; the other prefixes all end in an
input error.

The induction is on the records.  A record that lies inside the prefix is taken by one
round of the loop, and the first that does not is what is left of the prefix.
-/

namespace Crabstash.WalCodec

open LittleEndian

variable (codec : WalCodec)

/-- A record as it was written, and whether with compression. -/
def written (w : Bool × WalRecord) : Bytes := codec.frame (codec.encodeRecord w.1 w.2)

/-- The file. -/
def logBytes (records : List (Bool × WalRecord)) : Bytes := records.flatMap codec.written

/-- The records that lie wholly inside the first `n` bytes. -/
def whollyInside : ℕ → List (Bool × WalRecord) → List WalRecord
  | _, [] => []
  | n, w :: rest =>
      if (codec.written w).length ≤ n then
        w.2 :: whollyInside (n - (codec.written w).length) rest
      else []

/-- How many of the first `n` bytes belong to a record that is not wholly inside. -/
def tornBytes : ℕ → List (Bool × WalRecord) → ℕ
  | _, [] => 0
  | n, w :: rest =>
      if (codec.written w).length ≤ n then tornBytes (n - (codec.written w).length) rest else n

variable {codec}

theorem eight_le_length_written (w : Bool × WalRecord) : 8 ≤ (codec.written w).length :=
  codec.eight_le_length_frame _

/-! ## The torn record -/

/-- No full header is left: the end of the log. -/
theorem recoverLoop_short (decompress : Bool) (fuel : ℕ) {bytes : Bytes}
    (hshort : bytes.length < 8) : codec.recoverLoop decompress fuel bytes = .ok [] := by
  cases fuel with
  | zero => rfl
  | succ fuel =>
      have hheader : splitAt? 8 bytes = none := if_neg (not_le.mpr hshort)
      rw [recoverLoop, hheader]

/-- The header is left, and not all of the body: a failure. -/
theorem recoverLoop_torn (decompress : Bool) (fuel : ℕ) {body : Bytes} {n : ℕ}
    (hbody : body.length < 2 ^ 32) (height : 8 ≤ n) (htorn : n < (codec.frame body).length)
    (rest : Bytes) :
    codec.recoverLoop decompress (fuel + 1) ((codec.frame body ++ rest).take n)
      = .error (.error .io) := by
  have hlength : (codec.frame body).length = 8 + body.length := by
    simp only [frame, List.length_append, length_toLE]
    omega
  have hshape : (codec.frame body ++ rest).take n =
      (toLE 4 (codec.crc32 body).toNat ++ toLE 4 body.length) ++ body.take (n - 8) := by
    rw [List.take_append_of_le_length htorn.le, frame, ← List.append_assoc,
      List.take_append, List.take_of_length_le (by simpa using height)]
    simp
  have hheader : splitAt? 8 ((codec.frame body ++ rest).take n) =
      some (toLE 4 (codec.crc32 body).toNat ++ toLE 4 body.length, body.take (n - 8)) := by
    rw [hshape]
    exact splitAt?_append (by simp) _
  have hlen : ofLE ((toLE 4 (codec.crc32 body).toNat ++ toLE 4 body.length).drop 4)
      = body.length := by
    rw [List.drop_left' (length_toLE 4 _)]
    exact ofLE_toLE_of_lt (by simpa using hbody)
  have hmissing : splitAt? body.length (body.take (n - 8)) = none := by
    refine if_neg (not_le.mpr ?_)
    rw [List.length_take]
    omega
  rw [recoverLoop, hheader]
  simp only [hlen, hmissing]

/-! ## The prefix -/

/-- What the reader makes of a prefix. -/
theorem recoverLoop_take (hcodec : codec.Inverts) {records : List (Bool × WalRecord)}
    (hrecords : ∀ w ∈ records, w.2.WellFormed) (n : ℕ) {fuel : ℕ}
    (hfuel : ((codec.logBytes records).take n).length ≤ fuel) :
    codec.recoverLoop true fuel ((codec.logBytes records).take n) =
      if codec.tornBytes n records < 8 then .ok (codec.whollyInside n records)
      else .error (.error .io) := by
  induction records generalizing n fuel with
  | nil => exact recoverLoop_short true fuel (by simp [logBytes])
  | cons w rest ih =>
      obtain ⟨hwell, hrest⟩ := List.forall_mem_cons.mp hrecords
      have hbytes : codec.logBytes (w :: rest) = codec.written w ++ codec.logBytes rest := rfl
      have height := codec.eight_le_length_written w
      rw [hbytes] at hfuel ⊢
      rw [tornBytes, whollyInside]
      by_cases hinside : (codec.written w).length ≤ n
      · have htake : (codec.written w ++ codec.logBytes rest).take n =
            codec.written w ++ (codec.logBytes rest).take (n - (codec.written w).length) := by
          rw [List.take_append, List.take_of_length_le hinside]
        rw [htake, List.length_append] at hfuel
        rw [if_pos hinside, if_pos hinside, htake]
        obtain ⟨fuel, rfl⟩ : ∃ fuel', fuel = fuel' + 1 := Nat.exists_eq_succ_of_ne_zero (by omega)
        -- one round takes the record
        rw [written, recoverLoop_frame hcodec w.1 hwell, ← written,
          ih hrest (n - (codec.written w).length) (by omega)]
        split <;> rfl
      · rw [if_neg hinside, if_neg hinside]
        rw [not_le] at hinside
        have hlength : ((codec.written w ++ codec.logBytes rest).take n).length = n := by
          rw [List.length_take, List.length_append]
          omega
        by_cases hshort : n < 8
        · rw [if_pos hshort, recoverLoop_short true fuel (by omega)]
        · rw [if_neg hshort]
          obtain ⟨fuel, rfl⟩ : ∃ fuel', fuel = fuel' + 1 :=
            Nat.exists_eq_succ_of_ne_zero (by omega)
          exact recoverLoop_torn true fuel (codec.length_encodeRecord_lt w.1 hwell)
            (not_lt.mp hshort) hinside _

/-- A prefix of a log gives the records wholly inside it exactly if fewer than eight bytes
of the torn record are left. -/
theorem recover_take_iff (hcodec : codec.Inverts) {records : List (Bool × WalRecord)}
    (hrecords : ∀ w ∈ records, w.2.WellFormed) (n : ℕ) :
    codec.recover ((codec.logBytes records).take n) = .ok (codec.whollyInside n records) ↔
      codec.tornBytes n records < 8 := by
  have hrecover : codec.recover ((codec.logBytes records).take n) = _ :=
    recoverLoop_take hcodec hrecords n le_rfl
  rw [hrecover]
  split
  · next hshort => exact iff_of_true rfl hshort
  · next hlong => exact iff_of_false (fun h => by cases h) hlong

/-- Two records, the second written with compression on. -/
def twoRecords : List (Bool × WalRecord) :=
  [(false, { recordType := .put, key := [1], value := some [2], timestamp := 1 }),
    (true, { recordType := .delete, key := [3], value := none, timestamp := 2 })]

/-- A cut inside the second header leaves the first record. -/
theorem recover_take_header :
    WalHistory.storingCodec.recover ((WalHistory.storingCodec.logBytes twoRecords).take 32) =
      .ok (WalHistory.storingCodec.whollyInside 32 twoRecords) :=
  (recover_take_iff WalHistory.inverts_storingCodec (by decide) 32).mpr (by decide)

/-- A cut inside the second body loses the first record as well. -/
theorem recover_take_body :
    ¬∀ (codec : WalCodec) (records : List (Bool × WalRecord)) (n : ℕ), codec.Inverts →
      (∀ w ∈ records, w.2.WellFormed) →
      codec.recover ((codec.logBytes records).take n) = .ok (codec.whollyInside n records) := by
  intro h
  have hread := h WalHistory.storingCodec twoRecords 40 WalHistory.inverts_storingCodec (by decide)
  have htorn := recoverLoop_take WalHistory.inverts_storingCodec (by decide : ∀ w ∈ twoRecords, _)
    40 le_rfl
  rw [if_neg (by decide)] at htorn
  cases hread.symm.trans htorn

end Crabstash.WalCodec

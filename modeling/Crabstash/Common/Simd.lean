import Crabstash.Foundations.LexOrder
import Mathlib.Data.BitVec

/-!
# Chunked comparison of byte strings

`compare_bytes` and `bytes_equal` of `simd.rs`.  Both look at sixteen bytes at a
time through a lane-wise equality whose result is a bit mask, and fall back to
single bytes for what is left.  The mask is a `BitVec 32` as in the source; bit
`i` is set exactly when lane `i` agrees, and `trailingZeros` of its complement is
the first lane that does not.

The two results say that the chunking is invisible: `compareBytes_eq` (the
lexicographic order of `LexOrder.lean`) and `bytesEqual_iff`.
-/

namespace Crabstash

/-- A byte string: `Bytes`, `&[u8]` and `Vec<u8>` of the source. -/
abbrev Bytes := List UInt8

namespace Simd

/-- `CHUNK_SIZE`. -/
def chunkSize : ℕ := 16

/-- `ALL_EQUAL_MASK`. -/
def allEqualMask : BitVec 32 := 0xFFFF#32

/-- `load_chunk`: the first `CHUNK_SIZE` bytes of a slice. -/
def loadChunk (slice : Bytes) : Bytes := slice.take chunkSize

/-- `simd_eq` followed by `to_bitmask`: bit `i` is set iff lane `i` is equal. -/
def eqBitmask (chunkA chunkB : Bytes) : BitVec 32 :=
  (BitVec.ofBoolListLE (List.zipWith (· == ·) chunkA chunkB)).setWidth 32

/-- `u32::trailing_zeros`. -/
def trailingZeros (mask : BitVec 32) : ℕ :=
  ((List.range 32).find? fun i => mask.getLsbD i).getD 32

/-- The chunk loop of `compare_bytes`: either the verdict at a differing chunk
or the offset at which the scalar tail starts.  Every round moves `offset` by a
whole chunk, so `fuel = minLen` is never used up. -/
def compareChunks (a b : Bytes) (minLen : ℕ) : ℕ → ℕ → Ordering ⊕ ℕ
  | 0, offset => .inr offset
  | fuel + 1, offset =>
      if offset + chunkSize ≤ minLen then
        let bitmask := eqBitmask (loadChunk (a.drop offset)) (loadChunk (b.drop offset))
        if bitmask ≠ allEqualMask then
          let idx := offset + trailingZeros (~~~bitmask)
          .inl (cmp (a.getD idx 0) (b.getD idx 0))
        else compareChunks a b minLen fuel (offset + chunkSize)
      else .inr offset

/-- The scalar tail `for i in offset..min_len`, `count` rounds of it. -/
def compareTail (a b : Bytes) : ℕ → ℕ → Option Ordering
  | 0, _ => none
  | count + 1, i =>
      match cmp (a.getD i 0) (b.getD i 0) with
      | .eq => compareTail a b count (i + 1)
      | ord => some ord

/-- `compare_bytes`: the first difference decides, and where there is none the lengths do. -/
def compareBytes (a b : Bytes) : Ordering :=
  let minLen := min a.length b.length
  match compareChunks a b minLen minLen 0 with
  | .inl ord => ord
  | .inr offset =>
      match compareTail a b (minLen - offset) offset with
      | some ord => ord
      | none => cmp a.length b.length

/-- The chunk loop of `bytes_equal`: `none` when a chunk differs, otherwise the
offset of the remainder. -/
def equalChunks (a b : Bytes) (len : ℕ) : ℕ → ℕ → Option ℕ
  | 0, offset => some offset
  | fuel + 1, offset =>
      if offset + chunkSize ≤ len then
        if eqBitmask (loadChunk (a.drop offset)) (loadChunk (b.drop offset)) ≠ allEqualMask then
          none
        else equalChunks a b len fuel (offset + chunkSize)
      else some offset

/-- `bytes_equal`. -/
def bytesEqual (a b : Bytes) : Bool :=
  if a.length ≠ b.length then false
  else
    match equalChunks a b a.length a.length 0 with
    | none => false
    | some offset => a.drop offset == b.drop offset

/-! ## The mask -/

theorem getLsbD_eqBitmask {chunkA chunkB : Bytes} (hA : chunkA.length = chunkSize)
    (hB : chunkB.length = chunkSize) {i : ℕ} (hi : i < chunkSize) :
    (eqBitmask chunkA chunkB).getLsbD i = (chunkA.getD i 0 == chunkB.getD i 0) := by
  have hi' : i < 16 := hi
  simp only [chunkSize] at hA hB
  simp only [eqBitmask, BitVec.getLsbD_setWidth, BitVec.getLsbD_ofBoolListLE]
  simp [List.getD_eq_getElem?_getD, hA, hB, hi', show i < 32 by omega]

theorem getLsbD_eqBitmask_of_ge {chunkA chunkB : Bytes} (hA : chunkA.length = chunkSize)
    {i : ℕ} (hi : chunkSize ≤ i) : (eqBitmask chunkA chunkB).getLsbD i = false := by
  have hi' : 16 ≤ i := hi
  simp only [chunkSize] at hA
  simp only [eqBitmask, BitVec.getLsbD_setWidth, BitVec.getLsbD_ofBoolListLE]
  simp [List.getD_eq_getElem?_getD, hA, show ¬ i < 16 by omega]

theorem getLsbD_allEqualMask (i : ℕ) : allEqualMask.getLsbD i = decide (i < chunkSize) := by
  have hlow : ∀ i < 32, allEqualMask.getLsbD i = decide (i < chunkSize) := by decide
  by_cases hi : i < 32
  · exact hlow i hi
  · rw [BitVec.getLsbD_of_ge _ _ (by omega)]
    simp [chunkSize, show ¬ i < 16 by omega]

/-- All sixteen bits are set exactly when the chunks agree. -/
theorem eqBitmask_eq_allEqualMask_iff {chunkA chunkB : Bytes} (hA : chunkA.length = chunkSize)
    (hB : chunkB.length = chunkSize) : eqBitmask chunkA chunkB = allEqualMask ↔ chunkA = chunkB := by
  constructor
  · intro hmask
    refine List.ext_getElem (hA.trans hB.symm) fun i hiA hiB => ?_
    have hi : i < chunkSize := hA ▸ hiA
    have hbit := getLsbD_eqBitmask hA hB hi
    rw [hmask, getLsbD_allEqualMask, decide_eq_true hi] at hbit
    simpa [List.getD_eq_getElem?_getD, hiA, hiB] using hbit.symm
  · rintro rfl
    refine BitVec.eq_of_getLsbD_eq fun i _ => ?_
    rw [getLsbD_allEqualMask]
    by_cases hi : i < chunkSize
    · rw [getLsbD_eqBitmask hA hA hi]
      simp [hi]
    · rw [getLsbD_eqBitmask_of_ge hA (not_lt.mp hi)]
      simp [hi]

/-- The first clear bit of the mask is the first lane that differs. -/
theorem trailingZeros_spec {chunkA chunkB : Bytes} (hA : chunkA.length = chunkSize)
    (hB : chunkB.length = chunkSize) (hne : eqBitmask chunkA chunkB ≠ allEqualMask) :
    ∃ n, trailingZeros (~~~eqBitmask chunkA chunkB) = n ∧ n < chunkSize ∧
      chunkA.getD n 0 ≠ chunkB.getD n 0 ∧ ∀ j < n, chunkA.getD j 0 = chunkB.getD j 0 := by
  have hclear : ∀ i < 32, (~~~eqBitmask chunkA chunkB).getLsbD i =
      !(eqBitmask chunkA chunkB).getLsbD i := fun i hi => by simp [hi]
  -- some lane differs, for otherwise the mask would be full
  obtain ⟨d, hd, hdiff⟩ : ∃ d < chunkSize, chunkA.getD d 0 ≠ chunkB.getD d 0 := by
    by_contra hall
    push Not at hall
    refine hne ((eqBitmask_eq_allEqualMask_iff hA hB).mpr ?_)
    refine List.ext_getElem (hA.trans hB.symm) fun i hiA hiB => ?_
    simpa [List.getD_eq_getElem?_getD, hiA, hiB] using hall i (hA ▸ hiA)
  have hd32 : d < 32 := lt_trans hd (by decide)
  cases hfind : (List.range 32).find? fun i => (~~~eqBitmask chunkA chunkB).getLsbD i with
  | none =>
      have hset := List.find?_eq_none.mp hfind d (List.mem_range.mpr hd32)
      rw [hclear d hd32, getLsbD_eqBitmask hA hB hd] at hset
      simp only [Bool.not_eq_true', beq_eq_false_iff_ne, ne_eq, not_not] at hset
      exact absurd hset hdiff
  | some n =>
      obtain ⟨hset, hn, hbefore⟩ := List.find?_range_eq_some.mp hfind
      have hn32 : n < 32 := List.mem_range.mp hn
      have hle : ∀ j < n, j < chunkSize → chunkA.getD j 0 = chunkB.getD j 0 := by
        intro j hj hj16
        have hbit := hbefore j hj
        rw [hclear j (hj.trans hn32), getLsbD_eqBitmask hA hB hj16] at hbit
        simpa using hbit
      have hnd : n ≤ d := by
        by_contra hlt
        exact hdiff (hle d (not_le.mp hlt) hd)
      have hn16 : n < chunkSize := lt_of_le_of_lt hnd hd
      refine ⟨n, by rw [trailingZeros, hfind, Option.getD_some], hn16, ?_,
        fun j hj => hle j hj (hj.trans hn16)⟩
      rw [hclear n hn32, getLsbD_eqBitmask hA hB hn16] at hset
      simpa using hset

/-! ## The loops -/

/-- Equal prefixes of length `m` and equal windows of length `n` after them give
equal prefixes of length `m + n`. -/
theorem take_add_eq {a b : Bytes} {m n : ℕ} (htake : a.take m = b.take m)
    (hwindow : (a.drop m).take n = (b.drop m).take n) : a.take (m + n) = b.take (m + n) := by
  rw [List.take_add, List.take_add, htake, hwindow]

theorem length_loadChunk_drop {a : Bytes} {offset : ℕ} (h : offset + chunkSize ≤ a.length) :
    (loadChunk (a.drop offset)).length = chunkSize := by
  simp only [loadChunk, List.length_take, List.length_drop]
  omega

theorem getD_loadChunk_drop {a : Bytes} {offset n : ℕ} (hn : n < chunkSize) :
    (loadChunk (a.drop offset)).getD n 0 = a.getD (offset + n) 0 := by
  simp [loadChunk, List.getD_eq_getElem?_getD, hn]

/-- The first differing byte of a chunk after a common prefix decides. -/
theorem cmp_of_chunk_ne {a b : Bytes} {offset : ℕ} (htake : a.take offset = b.take offset)
    (ha : offset + chunkSize ≤ a.length) (hb : offset + chunkSize ≤ b.length)
    (hne : eqBitmask (loadChunk (a.drop offset)) (loadChunk (b.drop offset)) ≠ allEqualMask) :
    let idx := offset + trailingZeros
      (~~~eqBitmask (loadChunk (a.drop offset)) (loadChunk (b.drop offset)))
    cmp (a.getD idx 0) (b.getD idx 0) = cmp a b := by
  obtain ⟨n, hzeros, hn, hdiff, hsame⟩ :=
    trailingZeros_spec (length_loadChunk_drop ha) (length_loadChunk_drop hb) hne
  rw [getD_loadChunk_drop hn, getD_loadChunk_drop hn] at hdiff
  have hidxA : offset + n < a.length := by omega
  have hidxB : offset + n < b.length := by omega
  have htake' : a.take (offset + n) = b.take (offset + n) := by
    refine take_add_eq htake (List.ext_getElem (by simp; omega) fun j hjA hjB => ?_)
    have hj : j < n := by simp at hjA; omega
    have hsame' := hsame j hj
    rw [getD_loadChunk_drop (hj.trans hn), getD_loadChunk_drop (hj.trans hn)] at hsame'
    simpa [List.getD_eq_getElem?_getD, show offset + j < a.length by omega,
      show offset + j < b.length by omega] using hsame'
  have hgetA : a.getD (offset + n) 0 = a[offset + n] := by
    rw [List.getD_eq_getElem?_getD, List.getElem?_eq_getElem hidxA, Option.getD_some]
  have hgetB : b.getD (offset + n) 0 = b[offset + n] := by
    rw [List.getD_eq_getElem?_getD, List.getElem?_eq_getElem hidxB, Option.getD_some]
  intro idx
  have hidx : idx = offset + n := congrArg (offset + ·) hzeros
  rw [hgetA, hgetB] at hdiff
  rw [hidx, hgetA, hgetB]
  exact (LexOrder.cmp_of_getElem_ne htake' hidxA hidxB hdiff).symm

theorem compareChunks_succ (a b : Bytes) (minLen fuel offset : ℕ) :
    compareChunks a b minLen (fuel + 1) offset =
      if offset + chunkSize ≤ minLen then
        if eqBitmask (loadChunk (a.drop offset)) (loadChunk (b.drop offset)) ≠ allEqualMask then
          .inl (cmp
            (a.getD (offset + trailingZeros
              (~~~eqBitmask (loadChunk (a.drop offset)) (loadChunk (b.drop offset)))) 0)
            (b.getD (offset + trailingZeros
              (~~~eqBitmask (loadChunk (a.drop offset)) (loadChunk (b.drop offset)))) 0))
        else compareChunks a b minLen fuel (offset + chunkSize)
      else .inr offset :=
  rfl

theorem compareChunks_spec (a b : Bytes) (fuel offset : ℕ) (htake : a.take offset = b.take offset)
    (hoffset : offset ≤ min a.length b.length) :
    match compareChunks a b (min a.length b.length) fuel offset with
    | .inl ord => ord = cmp a b
    | .inr last => last ≤ min a.length b.length ∧ a.take last = b.take last := by
  induction fuel generalizing offset with
  | zero => exact ⟨hoffset, htake⟩
  | succ fuel ih =>
      rw [compareChunks_succ]
      by_cases hroom : offset + chunkSize ≤ min a.length b.length
      · have ha : offset + chunkSize ≤ a.length := hroom.trans (min_le_left _ _)
        have hb : offset + chunkSize ≤ b.length := hroom.trans (min_le_right _ _)
        rw [if_pos hroom]
        by_cases hmask : eqBitmask (loadChunk (a.drop offset)) (loadChunk (b.drop offset)) =
            allEqualMask
        · rw [if_neg (not_not.mpr hmask)]
          have hchunk := (eqBitmask_eq_allEqualMask_iff (length_loadChunk_drop ha)
            (length_loadChunk_drop hb)).mp hmask
          exact ih (offset + chunkSize) (take_add_eq htake hchunk) hroom
        · rw [if_pos hmask]
          exact cmp_of_chunk_ne htake ha hb hmask
      · rw [if_neg hroom]
        exact ⟨hoffset, htake⟩

theorem compareTail_succ (a b : Bytes) (count i : ℕ) :
    compareTail a b (count + 1) i =
      match cmp (a.getD i 0) (b.getD i 0) with
      | .eq => compareTail a b count (i + 1)
      | ord => some ord :=
  rfl

theorem compareTail_spec (a b : Bytes) (count i : ℕ) (htake : a.take i = b.take i)
    (hcount : i + count ≤ min a.length b.length) :
    match compareTail a b count i with
    | some ord => ord = cmp a b
    | none => a.take (i + count) = b.take (i + count) := by
  induction count generalizing i with
  | zero => exact htake
  | succ count ih =>
      have ha : i < a.length := by omega
      have hb : i < b.length := by omega
      have hgetA : a.getD i 0 = a[i] := by simp [List.getD_eq_getElem?_getD, ha]
      have hgetB : b.getD i 0 = b[i] := by simp [List.getD_eq_getElem?_getD, hb]
      rw [compareTail_succ, hgetA, hgetB]
      by_cases heq : a[i] = b[i]
      · have htake' : a.take (i + 1) = b.take (i + 1) := by
          rw [List.take_add_one, List.take_add_one, htake, List.getElem?_eq_getElem ha,
            List.getElem?_eq_getElem hb, heq]
        have hrest := ih (i + 1) htake' (by omega)
        rw [Nat.add_right_comm, Nat.add_assoc] at hrest
        rw [heq, cmp_self_eq_eq]
        exact hrest
      · have hdecided := LexOrder.cmp_of_getElem_ne htake ha hb heq
        rcases lt_or_gt_of_ne heq with hlt | hgt
        · rw [hlt.cmp_eq_lt] at hdecided ⊢
          exact hdecided.symm
        · rw [hgt.cmp_eq_gt] at hdecided ⊢
          exact hdecided.symm

/-- **Chunked comparison is the lexicographic order.** -/
theorem compareBytes_eq (a b : Bytes) : compareBytes a b = cmp a b := by
  have hchunks := compareChunks_spec a b (min a.length b.length) 0 rfl (Nat.zero_le _)
  have hdef : compareBytes a b =
      match compareChunks a b (min a.length b.length) (min a.length b.length) 0 with
      | .inl ord => ord
      | .inr offset =>
          match compareTail a b (min a.length b.length - offset) offset with
          | some ord => ord
          | none => cmp a.length b.length := rfl
  rw [hdef]
  cases hc : compareChunks a b (min a.length b.length) (min a.length b.length) 0 with
  | inl ord =>
      rw [hc] at hchunks
      exact hchunks
  | inr offset =>
      rw [hc] at hchunks
      obtain ⟨hle, htake⟩ := hchunks
      have htail := compareTail_spec a b (min a.length b.length - offset) offset htake (by omega)
      change (match compareTail a b (min a.length b.length - offset) offset with
        | some ord => ord
        | none => cmp a.length b.length) = cmp a b
      cases ht : compareTail a b (min a.length b.length - offset) offset with
      | some ord =>
          rw [ht] at htail
          exact htail
      | none =>
          rw [ht, Nat.add_sub_cancel' hle] at htail
          exact (LexOrder.cmp_of_take_eq htail).symm

theorem equalChunks_spec (a b : Bytes) (hlen : a.length = b.length) (fuel offset : ℕ)
    (htake : a.take offset = b.take offset) :
    match equalChunks a b a.length fuel offset with
    | none => a ≠ b
    | some last => a.take last = b.take last := by
  induction fuel generalizing offset with
  | zero => exact htake
  | succ fuel ih =>
      rw [equalChunks]
      by_cases hroom : offset + chunkSize ≤ a.length
      · have hchunk := eqBitmask_eq_allEqualMask_iff (length_loadChunk_drop hroom)
          (length_loadChunk_drop (hlen ▸ hroom : offset + chunkSize ≤ b.length))
        rw [if_pos hroom]
        by_cases hsame : loadChunk (a.drop offset) = loadChunk (b.drop offset)
        · rw [if_neg (not_not.mpr (hchunk.mpr hsame))]
          exact ih (offset + chunkSize) (take_add_eq htake hsame)
        · rw [if_pos (mt hchunk.mp hsame)]
          rintro rfl
          exact hsame rfl
      · rw [if_neg hroom]
        exact htake

theorem bytesEqual_iff (a b : Bytes) : bytesEqual a b = true ↔ a = b := by
  unfold bytesEqual
  by_cases hlen : a.length = b.length
  · rw [if_neg (not_not.mpr hlen)]
    have hspec := equalChunks_spec a b hlen a.length 0 rfl
    cases hc : equalChunks a b a.length a.length 0 with
    | none =>
        rw [hc] at hspec
        simpa using hspec
    | some last =>
        rw [hc] at hspec
        simp only at hspec
        simp only [beq_iff_eq]
        refine ⟨fun hrest => ?_, fun h => by rw [h]⟩
        rw [← List.take_append_drop last a, ← List.take_append_drop last b, hspec, hrest]
  · rw [if_pos hlen]
    simpa using fun h : a = b => hlen (congrArg List.length h)

end Simd
end Crabstash

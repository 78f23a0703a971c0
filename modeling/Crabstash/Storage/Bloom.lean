import Crabstash.Common.Simd

/-!
# The bloom filter of an SSTable

`BloomFilter` of `bloom.rs`: a bit vector kept as bytes and a number of probes.
Both `insert` and `may_contain` step a 32-bit hash by a rotated copy of itself
and look at one bit a step.

The filter is only ever built with a false positive rate of `0.01`, for which
the two floating point formulas give ten bits a key and seven probes; these are
the constants `bitsPerKey` and `numHashesPerKey`.

Both come to the same positions (`bits_insert`, `mayContain_iff`), which depend on
the key and on the length of the bit vector, and an insert leaves that as it is.
So there are no false negatives, which the read path relies on:
`mayContain_insert_self` for the key just inserted and `mayContain_insert` for
the keys inserted before it.  `noFalseNegatives` says it for filters of any size
and for any numbers that the formulas may give.
-/

namespace Crabstash

/-- The bits of the filter, eight to a byte. -/
structure BloomFilter where
  bits : List UInt8
  numHashes : ℕ
  deriving DecidableEq, Repr

namespace BloomFilter

/-- `SEED`. -/
def seed : UInt32 := 0xbc9f1d34

/-- `optimal_bits_per_key(0.01)`: `⌈-ln 0.01 / (ln 2)²⌉`. -/
def bitsPerKey : ℕ := 10

/-- `optimal_num_hashes(10)`: `⌈10 · ln 2⌉`. -/
def numHashesPerKey : ℕ := 7

/-- `BloomFilter::new(num_keys, 0.01)`. -/
def new (numKeys : ℕ) : BloomFilter :=
  let numBits := max (numKeys * bitsPerKey) 64
  { bits := List.replicate ((numBits + 7) / 8) 0, numHashes := numHashesPerKey }

/-- `u32::from_le_bytes`. -/
def fromLeBytes (b₀ b₁ b₂ b₃ : UInt8) : UInt32 :=
  b₀.toUInt32 ||| (b₁.toUInt32 <<< 8) ||| (b₂.toUInt32 <<< 16) ||| (b₃.toUInt32 <<< 24)

/-- One round of `hash`: mix four bytes into the state. -/
def mix (h k : UInt32) : UInt32 :=
  let h := (h ^^^ k) * 0x5bd1e995
  h ^^^ (h >>> 15)

/-- The loop of `hash` over `key.chunks(4)`; a short last chunk is padded with zeros. -/
def hashChunks (h : UInt32) : Bytes → UInt32
  | [] => h
  | [b₀] => mix h (fromLeBytes b₀ 0 0 0)
  | [b₀, b₁] => mix h (fromLeBytes b₀ b₁ 0 0)
  | [b₀, b₁, b₂] => mix h (fromLeBytes b₀ b₁ b₂ 0)
  | b₀ :: b₁ :: b₂ :: b₃ :: rest => hashChunks (mix h (fromLeBytes b₀ b₁ b₂ b₃)) rest

/-- `hash`. -/
def hash (key : Bytes) : UInt32 := hashChunks (seed ^^^ key.length.toUInt32) key

/-- `h.rotate_left(15)`. -/
def rotateLeft15 (h : UInt32) : UInt32 := (h <<< 15) ||| (h >>> 17)

/-- The mask `1 << (bit_pos % 8)`. -/
def bitMask (bitPos : ℕ) : UInt8 := 1 <<< (UInt8.ofNat (bitPos % 8))

/-- The probe loop of `insert`. -/
def setBits (numBits : ℕ) (delta : UInt32) : ℕ → UInt32 → List UInt8 → List UInt8
  | 0, _, bits => bits
  | n + 1, h, bits =>
      let bitPos := h.toNat % numBits
      setBits numBits delta n (h + delta) (bits.modify (bitPos / 8) (· ||| bitMask bitPos))

/-- `insert`: the bits of the key are set. -/
def insert (bloom : BloomFilter) (key : Bytes) : BloomFilter :=
  let numBits := bloom.bits.length * 8
  let h := hash key
  { bloom with bits := setBits numBits (rotateLeft15 h) bloom.numHashes h bloom.bits }

/-- The probe loop of `may_contain`. -/
def testBits (numBits : ℕ) (delta : UInt32) (bits : List UInt8) : ℕ → UInt32 → Bool
  | 0, _ => true
  | n + 1, h =>
      let bitPos := h.toNat % numBits
      if bits.getD (bitPos / 8) 0 &&& bitMask bitPos = 0 then false
      else testBits numBits delta bits n (h + delta)

/-- `may_contain`: all bits of the key are set. -/
def mayContain (bloom : BloomFilter) (key : Bytes) : Bool :=
  let numBits := bloom.bits.length * 8
  let h := hash key
  testBits numBits (rotateLeft15 h) bloom.bits bloom.numHashes h

/-! ## Bits -/

/-- Bit `pos` of a bit vector, counted as the probe loops count. -/
def BitSet (bits : List UInt8) (pos : ℕ) : Prop := bits.getD (pos / 8) 0 &&& bitMask pos ≠ 0

theorem bitMask_ne_zero (pos : ℕ) : bitMask pos ≠ 0 := by
  have hall : ∀ i < 8, (1 : UInt8) <<< UInt8.ofNat i ≠ 0 := by decide
  exact hall _ (Nat.mod_lt _ (by decide))

theorem or_and_ne_zero_left {a m b : UInt8} (h : a &&& b ≠ 0) : (a ||| m) &&& b ≠ 0 := by
  intro hzero
  apply h
  rw [← UInt8.toBitVec_inj] at hzero ⊢
  ext i hi
  have hbit := congrArg (fun v : BitVec 8 => v[i]) hzero
  simp at hbit ⊢
  grind

theorem or_and_ne_zero_right {a m : UInt8} (h : m ≠ 0) : (a ||| m) &&& m ≠ 0 := by
  intro hzero
  apply h
  rw [← UInt8.toBitVec_inj] at hzero ⊢
  ext i hi
  have hbit := congrArg (fun v : BitVec 8 => v[i]) hzero
  simp at hbit ⊢
  grind

theorem bitSet_modify_self {bits : List UInt8} {pos : ℕ} (hpos : pos < bits.length * 8) :
    BitSet (bits.modify (pos / 8) (· ||| bitMask pos)) pos := by
  have hlt : pos / 8 < bits.length := by omega
  simp only [BitSet, List.getD_eq_getElem?_getD, List.getElem?_modify_eq,
    List.getElem?_eq_getElem hlt, Option.map_eq_map, Option.map_some, Option.getD_some]
  exact or_and_ne_zero_right (bitMask_ne_zero pos)

theorem BitSet.modify {bits : List UInt8} {pos : ℕ} (h : BitSet bits pos) (i : ℕ) (m : UInt8) :
    BitSet (bits.modify i (· ||| m)) pos := by
  by_cases hi : i = pos / 8
  · subst hi
    unfold BitSet at h ⊢
    rw [List.getD_eq_getElem?_getD] at h ⊢
    rw [List.getElem?_modify_eq]
    cases hget : bits[pos / 8]? with
    | none => simp [hget] at h
    | some b =>
        rw [hget] at h
        exact or_and_ne_zero_left h
  · unfold BitSet at h ⊢
    rw [List.getD_eq_getElem?_getD] at h ⊢
    rwa [List.getElem?_modify_ne _ _ hi]

@[simp] theorem length_setBits (numBits : ℕ) (delta : UInt32) (n : ℕ) (h : UInt32)
    (bits : List UInt8) : (setBits numBits delta n h bits).length = bits.length := by
  induction n generalizing h bits with
  | zero => rfl
  | succ n ih => rw [setBits, ih, List.length_modify]

theorem BitSet.setBits {bits : List UInt8} {pos : ℕ} (hset : BitSet bits pos) (numBits : ℕ)
    (delta : UInt32) (n : ℕ) (h : UInt32) :
    BitSet (BloomFilter.setBits numBits delta n h bits) pos := by
  induction n generalizing h bits with
  | zero => exact hset
  | succ n ih => exact ih (hset.modify _ _) _

/-! ## The probes -/

/-- The positions that the probe loops come to. -/
def positions (numBits : ℕ) (delta : UInt32) : ℕ → UInt32 → List ℕ
  | 0, _ => []
  | n + 1, h => h.toNat % numBits :: positions numBits delta n (h + delta)

theorem setBits_eq_foldl (numBits : ℕ) (delta : UInt32) (n : ℕ) (h : UInt32)
    (bits : List UInt8) :
    setBits numBits delta n h bits = (positions numBits delta n h).foldl
      (fun bits pos => bits.modify (pos / 8) (· ||| bitMask pos)) bits := by
  induction n generalizing h bits with
  | zero => rfl
  | succ n ih => rw [setBits, ih, positions, List.foldl_cons]

theorem testBits_iff {numBits : ℕ} {delta : UInt32} {bits : List UInt8} {n : ℕ} {h : UInt32} :
    testBits numBits delta bits n h = true ↔
      ∀ pos ∈ positions numBits delta n h, BitSet bits pos := by
  induction n generalizing h with
  | zero => simp [testBits, positions]
  | succ n ih =>
      rw [testBits, positions, List.forall_mem_cons, ← ih, BitSet]
      split <;> simp_all

theorem lt_of_mem_positions {numBits : ℕ} (hpos : 0 < numBits) {delta : UInt32} {n : ℕ}
    {h : UInt32} {pos : ℕ} (hmem : pos ∈ positions numBits delta n h) : pos < numBits := by
  induction n generalizing h with
  | zero => exact absurd hmem List.not_mem_nil
  | succ n ih =>
      rcases List.mem_cons.mp hmem with rfl | hmem
      · exact Nat.mod_lt _ hpos
      · exact ih hmem

/-- A bit that a loop sets stays set until its end. -/
theorem bitSet_foldl {ps : List ℕ} {bits : List UInt8} {pos : ℕ} (hin : pos < bits.length * 8)
    (hmem : pos ∈ ps) :
    BitSet (ps.foldl (fun bits pos => bits.modify (pos / 8) (· ||| bitMask pos)) bits) pos := by
  have hkeeps : ∀ (ps : List ℕ) {bits : List UInt8}, BitSet bits pos →
      BitSet (ps.foldl (fun bits pos => bits.modify (pos / 8) (· ||| bitMask pos)) bits) pos := by
    intro ps
    induction ps with
    | nil => exact fun hset => hset
    | cons p ps ih => exact fun hset => ih (hset.modify _ _)
  induction ps generalizing bits with
  | nil => exact absurd hmem List.not_mem_nil
  | cons p ps ih =>
      rw [List.foldl_cons]
      rcases List.mem_cons.mp hmem with rfl | hmem
      · exact hkeeps ps (bitSet_modify_self hin)
      · exact ih (by rw [List.length_modify]; exact hin) hmem

/-- What `insert` sets and `may_contain` looks at for a key. -/
def probes (bloom : BloomFilter) (key : Bytes) : List ℕ :=
  positions (bloom.bits.length * 8) (rotateLeft15 (hash key)) bloom.numHashes (hash key)

theorem bits_insert (bloom : BloomFilter) (key : Bytes) :
    (bloom.insert key).bits = (bloom.probes key).foldl
      (fun bits pos => bits.modify (pos / 8) (· ||| bitMask pos)) bloom.bits :=
  setBits_eq_foldl ..

theorem mayContain_iff {bloom : BloomFilter} {key : Bytes} :
    bloom.mayContain key = true ↔ ∀ pos ∈ bloom.probes key, BitSet bloom.bits pos :=
  testBits_iff

/-- All positions lie in the bit vector. -/
theorem lt_of_mem_probes {bloom : BloomFilter} (hpos : 0 < bloom.bits.length) {key : Bytes}
    {pos : ℕ} (hmem : pos ∈ bloom.probes key) : pos < bloom.bits.length * 8 :=
  lt_of_mem_positions (by omega) hmem

/-! ## No false negatives -/

@[simp] theorem length_bits_insert (bloom : BloomFilter) (key : Bytes) :
    (bloom.insert key).bits.length = bloom.bits.length :=
  length_setBits ..

/-- The positions depend on the length of the bit vector only. -/
@[simp] theorem probes_insert (bloom : BloomFilter) (key key' : Bytes) :
    (bloom.insert key').probes key = bloom.probes key := by
  unfold probes
  rw [length_bits_insert]
  rfl

theorem length_bits_new_pos (numKeys : ℕ) : 0 < (new numKeys).bits.length := by
  have hbits : 64 ≤ max (numKeys * bitsPerKey) 64 := le_max_right _ _
  simp only [new, List.length_replicate]
  omega

theorem mayContain_insert_self {bloom : BloomFilter} (hpos : 0 < bloom.bits.length) (key : Bytes) :
    (bloom.insert key).mayContain key = true := by
  rw [mayContain_iff, probes_insert, bits_insert]
  intro pos hmem
  exact bitSet_foldl (lt_of_mem_probes hpos hmem) hmem

theorem mayContain_insert {bloom : BloomFilter} {key : Bytes} (h : bloom.mayContain key = true)
    (key' : Bytes) : (bloom.insert key').mayContain key = true := by
  rw [mayContain_iff] at h ⊢
  rw [probes_insert]
  intro pos hmem
  exact (h pos hmem).setBits _ _ _ _

/-! ## Filters of any size -/

/-- `BloomFilter::new` with the numbers that the two formulas give for the false positive rate.
The product is one of `usize`. -/
def newWith (bitsPerKey numHashes numKeys : ℕ) : BloomFilter :=
  let numBits := max (numKeys * bitsPerKey % 2 ^ 64) 64
  { bits := List.replicate ((numBits + 7) / 8) 0, numHashes }

theorem newWith_eq_new {numKeys : ℕ} (hfits : numKeys * bitsPerKey < 2 ^ 64) :
    newWith bitsPerKey numHashesPerKey numKeys = new numKeys := by
  rw [newWith, Nat.mod_eq_of_lt hfits]
  rfl

/-- `from_bytes`. -/
def fromBytes (data : List UInt8) (numHashes : ℕ) : BloomFilter := { bits := data, numHashes }

theorem length_bits_newWith_pos (bitsPerKey numHashes numKeys : ℕ) :
    0 < (newWith bitsPerKey numHashes numKeys).bits.length := by
  have hbits : 64 ≤ max (numKeys * bitsPerKey % 2 ^ 64) 64 := le_max_right _ _
  simp only [newWith, List.length_replicate]
  omega

theorem length_bits_foldl_insert (bloom : BloomFilter) (keys : List Bytes) :
    (keys.foldl insert bloom).bits.length = bloom.bits.length := by
  induction keys generalizing bloom with
  | nil => rfl
  | cons key rest ih => rw [List.foldl_cons, ih, length_bits_insert]

theorem mayContain_foldl_insert {bloom : BloomFilter} (hpos : 0 < bloom.bits.length)
    {keys : List Bytes} {key : Bytes} (hkey : key ∈ keys ∨ bloom.mayContain key = true) :
    (keys.foldl insert bloom).mayContain key = true := by
  induction keys generalizing bloom with
  | nil => simpa using hkey
  | cons key' rest ih =>
      apply ih
      · rw [length_bits_insert]
        exact hpos
      · rcases hkey with hkey | hfound
        · rcases List.mem_cons.mp hkey with rfl | hkey
          · exact Or.inr (mayContain_insert_self hpos key)
          · exact Or.inl hkey
        · exact Or.inr (mayContain_insert hfound key')

/-- **No false negatives.**  For every filter that `new` makes and every sequence of keys that are
inserted into it, `may_contain` is true of all of them, also after the filter has been rebuilt from
its bits, and the positions of every key lie in the bit vector. -/
theorem noFalseNegatives (bitsPerKey numHashes numKeys : ℕ) (keys : List Bytes) :
    let bloom := keys.foldl insert (newWith bitsPerKey numHashes numKeys)
    (∀ key ∈ keys, bloom.mayContain key = true ∧
      (fromBytes bloom.bits bloom.numHashes).mayContain key = true) ∧
    ∀ key, ∀ pos ∈ bloom.probes key, pos < bloom.bits.length * 8 ∧ pos / 8 < bloom.bits.length := by
  intro bloom
  have hpos := length_bits_newWith_pos bitsPerKey numHashes numKeys
  refine ⟨fun key hkey => ?_, fun key pos hmem => ?_⟩
  · have hfound : bloom.mayContain key = true := mayContain_foldl_insert hpos (Or.inl hkey)
    exact ⟨hfound, hfound⟩
  · have hlength : 0 < bloom.bits.length :=
      hpos.trans_eq (length_bits_foldl_insert _ keys).symm
    have hlt := lt_of_mem_probes hlength hmem
    exact ⟨hlt, by omega⟩

-- more keys than the filter was made for
example : ([[1], [2], [3], [4, 5, 6, 7, 8]].foldl insert (newWith 10 7 1)).mayContain [3] = true := by
  decide

end BloomFilter
end Crabstash

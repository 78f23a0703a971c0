import Crabstash.Common.Error
import Crabstash.Foundations.LittleEndian
import Crabstash.Storage.SSTable

/-!
# The bytes of a table

What `SSTableBuilder` writes and `SSTable` reads, byte by byte.  A file is a sequence of blocks,
each compressed and followed by its checksum; then the metadata with the place of every block and
the bloom filter; then the place of the metadata and a magic number.

A value that is absent is written as the length `u32::MAX`.  All lengths are cut to 32 bits and
places to 64, so what is read back is what was written only where they fit.

The checksum and the compression are those of other crates.  Of the checksum nothing is used; of
the compression, that it can be undone into a buffer of the right size (`TableCodec.Inverts`).
-/

namespace Crabstash

open LittleEndian

/-- `crc32fast::hash` and the two functions of `lz4_flex`; `decompressInto` gives what is in an
output buffer of the given size afterwards. -/
structure TableCodec where
  crc32 : Bytes → UInt32
  compress : Bytes → Bytes
  decompressInto : Bytes → ℕ → Except String Bytes

/-- Decompression inverts compression. -/
def TableCodec.Inverts (codec : TableCodec) : Prop :=
  ∀ data, data.length < 2 ^ 32 → codec.decompressInto (codec.compress data) data.length = .ok data

/-- `CompressionType`. -/
inductive CompressionType where
  | none
  | lz4
  deriving DecidableEq, Repr

namespace CompressionType

/-- `to_u8`. -/
def toU8 : CompressionType → UInt8
  | none => 0
  | lz4 => 1

/-- `from_u8`: an unknown number counts as uncompressed. -/
def fromU8 (v : UInt8) : CompressionType := if v = 1 then lz4 else none

@[simp] theorem fromU8_toU8 (compression : CompressionType) :
    fromU8 compression.toU8 = compression := by
  cases compression <;> rfl

end CompressionType

/-- How reading a table ends early. -/
inductive TableFailure where
  | error (e : Error)
  | panic
  deriving DecidableEq, Repr

namespace TableCodec

variable (codec : TableCodec)

/-- `compress_block`. -/
def compressBlock (compression : CompressionType) (data : Bytes) : Bytes :=
  match compression with
  | .none => data
  | .lz4 => codec.compress data

/-- `decompress_block`. -/
def decompressBlock (compression : CompressionType) (data : Bytes) (uncompressedLen : ℕ) :
    Except TableFailure Bytes :=
  match compression with
  | .none => .ok data
  | .lz4 =>
      match codec.decompressInto data uncompressedLen with
      | .error e => .error (.error (.corruption ("LZ4 decompression failed: " ++ e)))
      | .ok output => .ok output

/-- A block as it is written, with the checksum. -/
def frame (compressed : Bytes) : Bytes := compressed ++ toLE 4 (codec.crc32 compressed).toNat

variable {codec}

theorem decompressBlock_compressBlock (hcodec : codec.Inverts) (compression : CompressionType)
    {data : Bytes} (hlength : data.length < 2 ^ 32) :
    codec.decompressBlock compression (codec.compressBlock compression data) data.length =
      .ok data := by
  cases compression with
  | none => rfl
  | lz4 => simp only [decompressBlock, compressBlock, hcodec data hlength]

end TableCodec

/-! ## Entries -/

namespace TableFile

/-- The length that stands for a tombstone: `u32::MAX`. -/
def tombstone : ℕ := 2 ^ 32 - 1

/-- What `add` appends to the block. -/
def encodeEntry (e : Entry) : Bytes :=
  toLE 4 e.1.length ++ (e.1 ++
    match e.2 with
    | some value => toLE 4 value.length ++ value
    | none => toLE 4 tombstone)

/-- The bytes of a block: its entries one behind the other. -/
def encodeBlock (block : List Entry) : Bytes := block.flatMap encodeEntry

/-- The key, the length of the value, and the buffer behind the two. -/
def readKey (buf : Bytes) : Option (Bytes × ℕ × Bytes) := do
  let keyLen ← readLE 4 buf
  let key ← splitAt? keyLen.1 keyLen.2
  let valueLen ← readLE 4 key.2
  return (key.1, valueLen.1, valueLen.2)

/-- The loop of `search_block`; none stands for a panic. -/
def searchLoop (searchKey : Bytes) : ℕ → Bytes → Option (Option Bytes)
  | 0, _ => some none
  | fuel + 1, buf =>
      if buf.isEmpty then some none
      else
        match readKey buf with
        | none => none
        | some (key, valueLen, buf) =>
            if Simd.bytesEqual key searchKey then
              if valueLen = tombstone then some none
              else (splitAt? valueLen buf).map fun value => some value.1
            else if valueLen = tombstone then searchLoop searchKey fuel buf
            else
              match splitAt? valueLen buf with
              | none => none
              | some value => searchLoop searchKey fuel value.2

/-- `search_block`: every round takes some bytes. -/
def searchBlock (block searchKey : Bytes) : Option (Option Bytes) :=
  searchLoop searchKey block.length block

/-- The lengths of an entry fit their fields, and the value is not taken for a tombstone. -/
def EntryFits (e : Entry) : Prop :=
  e.1.length < 2 ^ 32 ∧ ∀ value, e.2 = some value → value.length < tombstone

instance (e : Entry) : Decidable (EntryFits e) :=
  decidable_of_iff (e.1.length < 2 ^ 32 ∧ (e.2.map List.length).getD 0 < tombstone) (by
    obtain ⟨key, value⟩ := e
    cases value with
    | none => simp [EntryFits, tombstone]
    | some v => simp [EntryFits])

theorem length_encodeEntry (e : Entry) : (encodeEntry e).length = SSTableBuilder.encodedLen e := by
  obtain ⟨key, value⟩ := e
  cases value with
  | none => simp [encodeEntry, SSTableBuilder.encodedLen]; omega
  | some v => simp [encodeEntry, SSTableBuilder.encodedLen]; omega

theorem length_encodeBlock (block : List Entry) :
    (encodeBlock block).length = SSTableBuilder.blockLen block := by
  simp only [encodeBlock, List.length_flatMap, SSTableBuilder.blockLen, length_encodeEntry]

theorem encodeEntry_ne_nil (e : Entry) : encodeEntry e ≠ [] := by
  intro hnil
  have hlength := congrArg List.length hnil
  rw [length_encodeEntry, SSTableBuilder.encodedLen, List.length_nil] at hlength
  omega

/-- A block has a byte for every entry. -/
theorem length_le_length_encodeBlock (block : List Entry) :
    block.length ≤ (encodeBlock block).length := by
  induction block with
  | nil => rfl
  | cons e rest ih =>
      have hpos := List.length_pos_iff.mpr (encodeEntry_ne_nil e)
      simp only [encodeBlock, List.flatMap_cons, List.length_append, List.length_cons] at ih ⊢
      omega

theorem encodeBlock_eq_nil_iff {block : List Entry} : encodeBlock block = [] ↔ block = [] := by
  constructor
  · intro hnil
    have hle := length_le_length_encodeBlock block
    rw [hnil, List.length_nil] at hle
    exact List.eq_nil_of_length_eq_zero (by omega)
  · rintro rfl
    rfl

/-- What the reader finds in front of an entry's value. -/
theorem readKey_encodeEntry {e : Entry} (hfits : EntryFits e) (rest : Bytes) :
    readKey (encodeEntry e ++ rest) =
      match e.2 with
      | some value => some (e.1, value.length, value ++ rest)
      | none => some (e.1, tombstone, rest) := by
  obtain ⟨key, value⟩ := e
  have hkey : key.length < 256 ^ 4 := by simpa using hfits.1
  cases value with
  | none =>
      have htombstone : tombstone < 256 ^ 4 := by decide
      simp [readKey, encodeEntry, readLE_toLE hkey, readLE_toLE htombstone, splitAt?_append]
  | some v =>
      have hv : v.length < 256 ^ 4 := lt_trans (hfits.2 v rfl) (by decide)
      simp [readKey, encodeEntry, readLE_toLE hkey, readLE_toLE hv, splitAt?_append]

/-- The entry in front of a buffer, and the buffer behind it. -/
def decodeEntry (buf : Bytes) : Option (Entry × Bytes) := do
  let (key, valueLen, buf) ← readKey buf
  if valueLen = tombstone then return ((key, none), buf)
  else
    let value ← splitAt? valueLen buf
    return ((key, some value.1), value.2)

theorem readKey_eq_some {buf key rest : Bytes} {valueLen : ℕ}
    (h : readKey buf = some (key, valueLen, rest)) :
    key.length < 2 ^ 32 ∧ valueLen < 2 ^ 32 ∧
      buf = toLE 4 key.length ++ (key ++ (toLE 4 valueLen ++ rest)) := by
  simp only [readKey, Option.bind_eq_bind, Option.bind_eq_some_iff, Option.pure_def,
    Option.some.injEq, Prod.mk.injEq] at h
  obtain ⟨⟨keyLen, buf₁⟩, hkeyLen, ⟨key', buf₂⟩, hkey, ⟨valueLen', buf₃⟩, hvalueLen, rfl, rfl, rfl⟩ :=
    h
  obtain ⟨hkeyLt, rfl⟩ := readLE_eq_some_iff.mp hkeyLen
  obtain ⟨rfl, rfl⟩ := splitAt?_eq_some_iff.mp hkey
  obtain ⟨hvalueLt, rfl⟩ := readLE_eq_some_iff.mp hvalueLen
  exact ⟨by simpa using hkeyLt, by simpa using hvalueLt, rfl⟩

theorem decodeEntry_eq_some_iff {buf rest : Bytes} {e : Entry} :
    decodeEntry buf = some (e, rest) ↔ EntryFits e ∧ buf = encodeEntry e ++ rest := by
  constructor
  · intro h
    simp only [decodeEntry, Option.bind_eq_bind, Option.bind_eq_some_iff] at h
    obtain ⟨⟨key, valueLen, buf'⟩, hkey, h⟩ := h
    obtain ⟨hkeyFits, hvalueLen, rfl⟩ := readKey_eq_some hkey
    simp only at h
    split at h
    · next htombstone =>
        obtain ⟨rfl, rfl⟩ := Prod.mk.inj (Option.some.inj h)
        refine ⟨⟨hkeyFits, fun value hvalue => absurd hvalue (by simp)⟩, ?_⟩
        rw [htombstone]
        simp [encodeEntry]
    · next hlive =>
        simp only [Option.bind_eq_some_iff, Option.pure_def, Option.some.injEq, Prod.mk.injEq] at h
        obtain ⟨⟨value, buf''⟩, hvalue, rfl, rfl⟩ := h
        obtain ⟨rfl, rfl⟩ := splitAt?_eq_some_iff.mp hvalue
        refine ⟨⟨hkeyFits, fun value' hvalue' => ?_⟩, ?_⟩
        · obtain rfl := Option.some.inj hvalue'
          have hmax : tombstone = 2 ^ 32 - 1 := rfl
          show value.length < tombstone
          omega
        · simp [encodeEntry]
  · rintro ⟨hfits, rfl⟩
    rw [decodeEntry, readKey_encodeEntry hfits]
    obtain ⟨key, value⟩ := e
    cases value with
    | none => simp
    | some v =>
        have hlive : v.length ≠ tombstone := (hfits.2 v rfl).ne
        simp [hlive, splitAt?_append]

theorem searchLoop_encodeBlock (searchKey : Bytes) {block : List Entry}
    (hfits : ∀ e ∈ block, EntryFits e) {fuel : ℕ} (hfuel : block.length ≤ fuel) :
    searchLoop searchKey fuel (encodeBlock block) = some (SSTable.searchBlock searchKey block) := by
  induction block generalizing fuel with
  | nil => cases fuel <;> rfl
  | cons e rest ih =>
      obtain ⟨fuel, rfl⟩ : ∃ n, fuel = n + 1 := ⟨fuel - 1, by rw [List.length_cons] at hfuel; omega⟩
      have hlength : rest.length ≤ fuel := by simpa using hfuel
      have hrest := ih (fun e he => hfits e (List.mem_cons_of_mem _ he)) hlength
      have hread := readKey_encodeEntry (hfits e (List.mem_cons_self ..)) (encodeBlock rest)
      have hne : (encodeEntry e ++ encodeBlock rest).isEmpty = false := by
        simpa using fun h => absurd h (encodeEntry_ne_nil e)
      obtain ⟨key, value⟩ := e
      have hvalue := (hfits _ (List.mem_cons_self ..)).2
      rw [encodeBlock, List.flatMap_cons, ← encodeBlock, searchLoop, hne, SSTable.searchBlock,
        hread]
      cases value with
      | none =>
          simp only [Bool.false_eq_true, if_false, if_true, hrest]
          split <;> rfl
      | some v =>
          have hlive : v.length ≠ tombstone := (hvalue v rfl).ne
          simp only [Bool.false_eq_true, if_false, hlive, splitAt?_append, Option.map_some, hrest]
          split <;> rfl

/-- On the bytes of a block, the search is that on its entries. -/
theorem searchBlock_encodeBlock (searchKey : Bytes) {block : List Entry}
    (hfits : ∀ e ∈ block, EntryFits e) :
    searchBlock (encodeBlock block) searchKey = some (SSTable.searchBlock searchKey block) :=
  searchLoop_encodeBlock searchKey hfits (length_le_length_encodeBlock block)

/-! ## Metadata -/

/-- The entry of a block in the index: where it lies, and its first and last key. -/
structure BlockMeta where
  offset : ℕ
  length : ℕ
  uncompressedLength : ℕ
  firstKey : Bytes
  lastKey : Bytes
  deriving DecidableEq, Repr

/-- `encode` of a block's entry in the index. -/
def encodeMeta (m : BlockMeta) : Bytes :=
  toLE 8 m.offset ++ (toLE 4 m.length ++ (toLE 4 m.uncompressedLength ++
    (toLE 4 m.firstKey.length ++ (m.firstKey ++ (toLE 4 m.lastKey.length ++ m.lastKey)))))

/-- The metadata that `finish` writes. -/
def encodeMetadata (compression : CompressionType) (metas : List BlockMeta) (bloom : BloomFilter) :
    Bytes :=
  compression.toU8 :: (toLE 4 metas.length ++ (metas.flatMap encodeMeta ++
    (toLE 4 bloom.numHashes ++ (toLE 4 bloom.bits.length ++ bloom.bits))))

/-- `decode` of a block's entry in the index, and what is left behind it. -/
def decodeMeta (buf : Bytes) : Option (BlockMeta × Bytes) := do
  let offset ← readLE 8 buf
  let length ← readLE 4 offset.2
  let uncompressedLength ← readLE 4 length.2
  let firstKeyLen ← readLE 4 uncompressedLength.2
  let firstKey ← splitAt? firstKeyLen.1 firstKeyLen.2
  let lastKeyLen ← readLE 4 firstKey.2
  let lastKey ← splitAt? lastKeyLen.1 lastKeyLen.2
  return ({ offset := offset.1, length := length.1, uncompressedLength := uncompressedLength.1
            firstKey := firstKey.1, lastKey := lastKey.1 }, lastKey.2)

/-- The loop over the blocks. -/
def decodeMetas : ℕ → Bytes → Option (List BlockMeta × Bytes)
  | 0, buf => some ([], buf)
  | numBlocks + 1, buf => do
      let m ← decodeMeta buf
      let rest ← decodeMetas numBlocks m.2
      return (m.1 :: rest.1, rest.2)

/-- `decode_metadata`; none stands for a panic. -/
def decodeMetadata : Bytes → Option (List BlockMeta × BloomFilter × CompressionType × Bytes × Bytes)
  | [] => none
  | compression :: buf => do
      let numBlocks ← readLE 4 buf
      let metas ← decodeMetas numBlocks.1 numBlocks.2
      let bloomNumHashes ← readLE 4 metas.2
      let bloomLen ← readLE 4 bloomNumHashes.2
      let bloomBits ← splitAt? bloomLen.1 bloomLen.2
      return (metas.1, { bits := bloomBits.1, numHashes := bloomNumHashes.1 },
        CompressionType.fromU8 compression, (metas.1.head?.map BlockMeta.firstKey).getD [],
        (metas.1.getLast?.map BlockMeta.lastKey).getD [])

/-- The fields of a block's metadata are wide enough. -/
structure BlockMeta.Fits (m : BlockMeta) : Prop where
  offset : m.offset < 2 ^ 64
  length : m.length < 2 ^ 32
  uncompressedLength : m.uncompressedLength < 2 ^ 32
  firstKey : m.firstKey.length < 2 ^ 32
  lastKey : m.lastKey.length < 2 ^ 32

theorem decodeMeta_encodeMeta {m : BlockMeta} (hfits : m.Fits) (rest : Bytes) :
    decodeMeta (encodeMeta m ++ rest) = some (m, rest) := by
  have hoffset : m.offset < 256 ^ 8 := by simpa using hfits.offset
  have hlength : m.length < 256 ^ 4 := by simpa using hfits.length
  have huncompressed : m.uncompressedLength < 256 ^ 4 := by simpa using hfits.uncompressedLength
  have hfirst : m.firstKey.length < 256 ^ 4 := by simpa using hfits.firstKey
  have hlast : m.lastKey.length < 256 ^ 4 := by simpa using hfits.lastKey
  simp [decodeMeta, encodeMeta, readLE_toLE hoffset, readLE_toLE hlength,
    readLE_toLE huncompressed, readLE_toLE hfirst, readLE_toLE hlast, splitAt?_append]

theorem decodeMetas_encode {metas : List BlockMeta} (hfits : ∀ m ∈ metas, m.Fits) (rest : Bytes) :
    decodeMetas metas.length (metas.flatMap encodeMeta ++ rest) = some (metas, rest) := by
  induction metas with
  | nil => rfl
  | cons m metas ih =>
      have hrest := ih fun m hm => hfits m (List.mem_cons_of_mem _ hm)
      rw [List.flatMap_cons, List.append_assoc, List.length_cons, decodeMetas,
        decodeMeta_encodeMeta (hfits m (List.mem_cons_self ..))]
      simp [hrest]

theorem decodeMetadata_encodeMetadata {metas : List BlockMeta} {bloom : BloomFilter}
    (hfits : ∀ m ∈ metas, m.Fits) (hmetas : metas.length < 2 ^ 32)
    (hhashes : bloom.numHashes < 2 ^ 32) (hbits : bloom.bits.length < 2 ^ 32)
    (compression : CompressionType) :
    decodeMetadata (encodeMetadata compression metas bloom) = some (metas, bloom, compression,
      (metas.head?.map BlockMeta.firstKey).getD [],
      (metas.getLast?.map BlockMeta.lastKey).getD []) := by
  have hmetas : metas.length < 256 ^ 4 := by simpa using hmetas
  have hhashes : bloom.numHashes < 256 ^ 4 := by simpa using hhashes
  have hbits : bloom.bits.length < 256 ^ 4 := by simpa using hbits
  simp [decodeMetadata, encodeMetadata, readLE_toLE hmetas, readLE_toLE hhashes,
    readLE_toLE hbits, decodeMetas_encode hfits, splitAt?_length]

end TableFile
end Crabstash

import Mathlib.Algebra.Order.Group.Nat
import Crabstash.Storage.TableFormat

/-!
# Writing and opening a table

`SSTableBuilder` as it writes a file, `SSTable::open`, and the reading of one block.

`SSTable.lean` keeps a block as the list of its entries.  The builder here runs in step with the
one there (`Written`): it cuts at the same places because a block's bytes are as many as are
counted there.  What has to be carried along is where the blocks are.  The metadata of a block
gives its place as the sum of the cut lengths of the blocks before it, and this is the true place
only while no block exceeds its length field, so that part of the invariant is conditional.

Opening the finished file gives back the metadata, and reading a block gives the bytes of its
entries (`Stores`, `stores_finish`).
-/

namespace Crabstash

open LittleEndian

/-- An opened table: the file, and what `open` takes from its metadata. -/
structure TableFile where
  id : ℕ
  file : Bytes
  blockMetas : List TableFile.BlockMeta
  bloom : BloomFilter
  compression : CompressionType
  minKey : Bytes
  maxKey : Bytes

namespace TableFile

/-- `SSTABLE_MAGIC`. -/
def magic : ℕ := 0x53535442

/-! ## Writing -/

/-- `SSTableBuilder`; the file is what has been written. -/
structure Builder where
  id : ℕ
  written : Bytes
  blockMetas : List BlockMeta
  currentBlock : Bytes
  blockFirstKey : Option Bytes
  blockOffset : ℕ
  bloom : BloomFilter
  compression : CompressionType
  numKeys : ℕ

namespace Builder

variable (codec : TableCodec)

/-- `new_with_compression`. -/
def newWithCompression (id estimatedKeys : ℕ) (compression : CompressionType) : Builder :=
  { id, written := [], blockMetas := [], currentBlock := [], blockFirstKey := none
    blockOffset := 0, bloom := BloomFilter.new (max estimatedKeys 1), compression, numKeys := 0 }

/-- `flush_block`: the block is compressed, framed and written, and its place noted. -/
def flushBlock (b : Builder) (lastKey : Bytes) : Builder :=
  if b.currentBlock.isEmpty then b
  else
    let uncompressedLength := b.currentBlock.length % 2 ^ 32
    let compressed := codec.compressBlock b.compression b.currentBlock
    let output := codec.frame compressed
    let length := output.length % 2 ^ 32
    { b with
      written := b.written ++ output
      blockMetas := b.blockMetas ++
        [{ offset := b.blockOffset, length, uncompressedLength
           firstKey := b.blockFirstKey.getD [], lastKey }]
      blockFirstKey := none
      blockOffset := (b.blockOffset + length) % 2 ^ 64
      currentBlock := [] }

/-- `add`: a block is flushed once it has reached its size. -/
def add (b : Builder) (key : Bytes) (value : Option Bytes) : Builder :=
  let b :=
    { b with
      bloom := b.bloom.insert key
      blockFirstKey := b.blockFirstKey.or (some key)
      currentBlock := b.currentBlock ++ encodeEntry (key, value)
      numKeys := b.numKeys + 1 }
  if SSTableBuilder.blockSize ≤ b.currentBlock.length then b.flushBlock codec key else b

/-- `finish`: the content of the file. -/
def finish (b : Builder) : Bytes :=
  let b := b.flushBlock codec ((b.blockMetas.getLast?.map BlockMeta.lastKey).getD [])
  b.written ++ (encodeMetadata b.compression b.blockMetas b.bloom ++
    (toLE 8 b.blockOffset ++ toLE 4 magic))

/-- `add` for each entry, then `finish`. -/
def build (id estimatedKeys : ℕ) (compression : CompressionType) (entries : List Entry) : Bytes :=
  (entries.foldl (fun b e => b.add codec e.1 e.2)
    (newWithCompression id estimatedKeys compression)).finish codec

end Builder

/-! ## Opening -/

/-- `seek` from the start, and the bytes there.  Places beyond the end are allowed, but a place is
a signed number to the system, so from `2 ^ 63` on it is negative; no file has so many bytes. -/
def seekStart (file : Bytes) (offset : ℕ) : Option Bytes :=
  if 2 ^ 63 ≤ offset ∧ file.length < offset then none else some (file.drop offset)

/-- `open`: the magic number, the place of the metadata and the metadata itself. -/
def openFile (id : ℕ) (file : Bytes) : Except TableFailure TableFile :=
  if file.length < 4 then .error (.error .io)
  else if ofLE (file.drop (file.length - 4)) ≠ magic then
    .error (.error (.corruption "Invalid SSTable magic"))
  else if file.length < 12 then .error (.error .io)
  else
    let metaOffset := ofLE ((file.drop (file.length - 12)).take 8)
    match seekStart file metaOffset with
    | none => .error (.error .io)
    | some metaData =>
        -- `meta_data.len() - 12` underflows
        if metaData.length < 12 then .error .panic
        else
          match decodeMetadata (metaData.take (metaData.length - 12)) with
          | none => .error .panic
          | some (blockMetas, bloom, compression, minKey, maxKey) =>
              .ok { id, file, blockMetas, bloom, compression, minKey, maxKey }

/-- `read_block_from_disk`. -/
def readBlockFromDisk (codec : TableCodec) (t : TableFile) (idx : ℕ) : Except TableFailure Bytes :=
  match t.blockMetas[idx]? with
  | none => .error .panic
  | some m =>
      match (seekStart t.file m.offset).bind (splitAt? m.length) with
      | none => .error (.error .io)
      | some (block, _) =>
          -- `block.len() - 4` underflows
          if block.length < 4 then .error .panic
          else
            let checksumStart := block.length - 4
            let data := block.take checksumStart
            if ofLE (block.drop checksumStart) ≠ (codec.crc32 data).toNat then
              .error (.error (.corruption "Block checksum mismatch"))
            else codec.decompressBlock t.compression data m.uncompressedLength

theorem seekStart_append (before rest : Bytes) :
    seekStart (before ++ rest) before.length = some rest := by
  rw [seekStart, if_neg (by rw [List.length_append]; omega), List.drop_left]

/-! ## The two builders in step -/

section Building

variable (codec : TableCodec) (compression : CompressionType)

/-- The bytes of a block in the file. -/
def storedBlock (block : List Entry) : Bytes :=
  codec.frame (codec.compressBlock compression (encodeBlock block))

/-- The lengths of a block fit the fields of its metadata. -/
def BlockFits (block : List Entry) : Prop :=
  (encodeBlock block).length < 2 ^ 32 ∧ (storedBlock codec compression block).length < 2 ^ 32

instance (block : List Entry) : Decidable (BlockFits codec compression block) :=
  inferInstanceAs (Decidable (_ ∧ _))

/-- What the metadata at a position says of the blocks, if they fit. -/
def Describes (blocks : List (List Entry)) (i : ℕ) (m : BlockMeta) : Prop :=
  ∃ block, blocks[i]? = some block ∧
    m.offset = ((blocks.take i).flatMap (storedBlock codec compression)).length % 2 ^ 64 ∧
    m.length = (storedBlock codec compression block).length ∧
    m.uncompressedLength = (encodeBlock block).length

/-- The builder has written the blocks that the other one has cut. -/
structure Written (b : Builder) (a : SSTableBuilder) : Prop where
  sameCompression : b.compression = compression
  bloom : b.bloom = a.bloom
  currentBlock : b.currentBlock = encodeBlock a.currentBlock
  blockFirstKey : b.blockFirstKey = a.blockFirstKey
  keys : b.blockMetas.map (fun m => (⟨m.firstKey, m.lastKey⟩ : Crabstash.BlockMeta)) = a.blockMetas
  written : b.written = a.blocks.flatMap (storedBlock codec compression)
  blockOffset : (∀ block ∈ a.blocks, BlockFits codec compression block) →
    b.blockOffset = b.written.length % 2 ^ 64
  describes : (∀ block ∈ a.blocks, BlockFits codec compression block) →
    ∀ i m, b.blockMetas[i]? = some m → Describes codec compression a.blocks i m
  length : b.blockMetas.length = a.blocks.length
  fits : ∀ m ∈ b.blockMetas, m.offset < 2 ^ 64 ∧ m.length < 2 ^ 32 ∧ m.uncompressedLength < 2 ^ 32
  offset_lt : b.blockOffset < 2 ^ 64

variable {codec compression}

theorem Describes.append {blocks : List (List Entry)} {i : ℕ} {m : BlockMeta}
    (h : Describes codec compression blocks i m) (block : List Entry) :
    Describes codec compression (blocks ++ [block]) i m := by
  obtain ⟨own, hown, hoffset, hlengths⟩ := h
  have hi : i < blocks.length := (List.getElem?_eq_some_iff.mp hown).1
  refine ⟨own, ?_, ?_, hlengths⟩
  · rw [List.getElem?_append_left hi, hown]
  · rw [List.take_append_of_le_length hi.le, hoffset]

theorem written_new (codec : TableCodec) (compression : CompressionType) (id estimatedKeys : ℕ) :
    Written codec compression (Builder.newWithCompression id estimatedKeys compression)
      (SSTableBuilder.new id estimatedKeys) where
  sameCompression := rfl
  bloom := rfl
  currentBlock := rfl
  blockFirstKey := rfl
  keys := rfl
  written := rfl
  blockOffset := fun _ => rfl
  describes := by
    intro _ i m hm
    exact absurd hm (by simp [Builder.newWithCompression])
  length := rfl
  fits := by
    intro m hm
    exact absurd hm List.not_mem_nil
  offset_lt := by
    show 0 < 2 ^ 64
    decide

theorem Written.flushBlock {b : Builder} {a : SSTableBuilder} (h : Written codec compression b a)
    (lastKey : Bytes) :
    Written codec compression (b.flushBlock codec lastKey) (a.flushBlock lastKey) := by
  unfold Builder.flushBlock SSTableBuilder.flushBlock
  have hempty : b.currentBlock.isEmpty = a.currentBlock.isEmpty := by
    rw [h.currentBlock, Bool.eq_iff_iff, List.isEmpty_iff, List.isEmpty_iff, encodeBlock_eq_nil_iff]
  rw [hempty]
  split
  · exact h
  · have hstored : codec.frame (codec.compressBlock b.compression b.currentBlock) =
        storedBlock codec compression a.currentBlock := by
      rw [h.sameCompression, h.currentBlock, storedBlock]
    simp only [hstored]
    have hbefore : (∀ block ∈ a.blocks ++ [a.currentBlock], BlockFits codec compression block) →
        ∀ block ∈ a.blocks, BlockFits codec compression block := by
      intro hfits block hblock
      exact hfits block (List.mem_append_left _ hblock)
    refine ⟨h.sameCompression, h.bloom, rfl, rfl, ?_, ?_, ?_, ?_, ?_, ?_, ?_⟩
    · simp [h.keys, h.blockFirstKey]
    · simp [h.written]
    · intro hfits
      have hoffset := h.blockOffset (hbefore hfits)
      have hown := (hfits a.currentBlock (by simp)).2
      simp only [List.length_append]
      omega
    · intro hfits i m hm
      simp only [List.getElem?_append] at hm
      split at hm
      · exact (h.describes (hbefore hfits) i m hm).append _
      · next hi =>
          -- the new block is the one at the end
          obtain ⟨hlast, rfl⟩ : i - b.blockMetas.length = 0 ∧ _ = m := by
            have hlt := (List.getElem?_eq_some_iff.mp hm).1
            rw [List.length_singleton] at hlt
            have hzero : i - b.blockMetas.length = 0 := by omega
            rw [hzero] at hm
            exact ⟨hzero, Option.some.inj hm⟩
          obtain rfl : i = a.blocks.length := by
            have := h.length
            omega
          have hown := hfits a.currentBlock (by simp)
          refine ⟨a.currentBlock, by simp, ?_, ?_, ?_⟩
          · rw [List.take_left' rfl, ← h.written]
            exact h.blockOffset (hbefore hfits)
          · exact Nat.mod_eq_of_lt hown.2
          · rw [h.currentBlock]
            exact Nat.mod_eq_of_lt hown.1
    · simp [h.length]
    · intro m hm
      rcases List.mem_append.mp hm with hm | hm
      · exact h.fits m hm
      · rw [List.mem_singleton.mp hm]
        exact ⟨h.offset_lt, Nat.mod_lt _ (by decide), Nat.mod_lt _ (by decide)⟩
    · exact Nat.mod_lt _ (by decide)

theorem Written.add {b : Builder} {a : SSTableBuilder} (h : Written codec compression b a)
    (key : Bytes) (value : Option Bytes) :
    Written codec compression (b.add codec key value) (a.add key value) := by
  -- the state before the block is cut, if it is full
  have hadded : Written codec compression
      { b with
        bloom := b.bloom.insert key
        blockFirstKey := b.blockFirstKey.or (some key)
        currentBlock := b.currentBlock ++ encodeEntry (key, value)
        numKeys := b.numKeys + 1 }
      { a with
        bloom := a.bloom.insert key
        blockFirstKey := a.blockFirstKey.or (some key)
        currentBlock := a.currentBlock ++ [(key, value)]
        numKeys := a.numKeys + 1 } := by
    refine ⟨h.sameCompression, ?_, ?_, ?_, h.keys, h.written, h.blockOffset, h.describes, h.length,
      h.fits, h.offset_lt⟩
    · rw [h.bloom]
    · simp [h.currentBlock, encodeBlock]
    · rw [h.blockFirstKey]
  have hcut : SSTableBuilder.blockSize ≤ (b.currentBlock ++ encodeEntry (key, value)).length ↔
      SSTableBuilder.blockSize ≤ SSTableBuilder.blockLen (a.currentBlock ++ [(key, value)]) := by
    have hblock : b.currentBlock ++ encodeEntry (key, value) =
        encodeBlock (a.currentBlock ++ [(key, value)]) := hadded.currentBlock
    rw [hblock, length_encodeBlock]
  unfold Builder.add SSTableBuilder.add
  simp only
  split
  · next hfull =>
      rw [if_pos (hcut.mp hfull)]
      exact hadded.flushBlock key
  · next hroom =>
      rw [if_neg (mt hcut.mpr hroom)]
      exact hadded

theorem Written.foldl_add {b : Builder} {a : SSTableBuilder} (h : Written codec compression b a)
    (entries : List Entry) :
    Written codec compression (entries.foldl (fun b e => b.add codec e.1 e.2) b)
      (entries.foldl (fun a e => a.add e.1 e.2) a) := by
  induction entries generalizing b a with
  | nil => exact h
  | cons e rest ih => exact ih (h.add e.1 e.2)

/-- The keys in the metadata are short enough for their fields. -/
structure KeysFit (b : Builder) : Prop where
  metas : ∀ m ∈ b.blockMetas, m.firstKey.length < 2 ^ 32 ∧ m.lastKey.length < 2 ^ 32
  blockFirstKey : ∀ key, b.blockFirstKey = some key → key.length < 2 ^ 32
  numHashes : b.bloom.numHashes = BloomFilter.numHashesPerKey

theorem KeysFit.flushBlock {b : Builder} (h : KeysFit b) (codec : TableCodec) {lastKey : Bytes}
    (hlast : lastKey.length < 2 ^ 32) : KeysFit (b.flushBlock codec lastKey) := by
  unfold Builder.flushBlock
  split
  · exact h
  · refine ⟨?_, ?_, h.numHashes⟩
    · intro m hm
      rcases List.mem_append.mp hm with hm | hm
      · exact h.metas m hm
      · rw [List.mem_singleton.mp hm]
        refine ⟨?_, hlast⟩
        cases hfirst : b.blockFirstKey with
        | none => exact Nat.two_pow_pos 32
        | some key => exact h.blockFirstKey key hfirst
    · intro key hkey
      contradiction

theorem KeysFit.add {b : Builder} (h : KeysFit b) (codec : TableCodec) {key : Bytes}
    (hkey : key.length < 2 ^ 32) (value : Option Bytes) : KeysFit (b.add codec key value) := by
  have hadded : KeysFit
      { b with
        bloom := b.bloom.insert key
        blockFirstKey := b.blockFirstKey.or (some key)
        currentBlock := b.currentBlock ++ encodeEntry (key, value)
        numKeys := b.numKeys + 1 } := by
    refine ⟨h.metas, ?_, h.numHashes⟩
    intro first hfirst
    cases hold : b.blockFirstKey with
    | none =>
        simp only [hold, Option.none_or, Option.some.injEq] at hfirst
        rw [← hfirst]
        exact hkey
    | some old =>
        simp only [hold, Option.some_or, Option.some.injEq] at hfirst
        rw [← hfirst]
        exact h.blockFirstKey old hold
  unfold Builder.add
  simp only
  split
  · exact hadded.flushBlock codec hkey
  · exact hadded

theorem KeysFit.foldl_add {b : Builder} (h : KeysFit b) (codec : TableCodec) {entries : List Entry}
    (hentries : ∀ e ∈ entries, e.1.length < 2 ^ 32) :
    KeysFit (entries.foldl (fun b e => b.add codec e.1 e.2) b) := by
  induction entries generalizing b with
  | nil => exact h
  | cons e rest ih =>
      obtain ⟨he, hrest⟩ := List.forall_mem_cons.mp hentries
      exact ih (h.add codec he e.2) hrest

theorem KeysFit.lastKey {b : Builder} (h : KeysFit b) :
    ((b.blockMetas.getLast?.map BlockMeta.lastKey).getD []).length < 2 ^ 32 := by
  cases hlast : b.blockMetas.getLast? with
  | none => decide
  | some m => exact (h.metas m (List.mem_of_getLast? hlast)).2

end Building

/-! ## What was written is read -/

/-- All lengths of a table are within the fields of the format. -/
structure Fits (codec : TableCodec) (compression : CompressionType) (a : SSTable) : Prop where
  entries : ∀ e ∈ a.entries, EntryFits e
  blocks : ∀ block ∈ a.blocks, BlockFits codec compression block
  numBlocks : a.blocks.length < 2 ^ 32
  bloom : a.bloom.bits.length < 2 ^ 32

/-- No table has more entries: each takes a byte of its block. -/
def entriesBound (t : TableFile) : ℕ :=
  (t.blockMetas.map fun m => max m.length m.uncompressedLength).sum

/-- The file is that of the table: reading a block gives the bytes of its entries. -/
structure Stores (codec : TableCodec) (t : TableFile) (a : SSTable) : Prop where
  bloom : t.bloom = a.bloom
  keys : t.blockMetas.map (fun m => (⟨m.firstKey, m.lastKey⟩ : Crabstash.BlockMeta)) = a.blockMetas
  minKey : t.minKey = a.minKey
  maxKey : t.maxKey = a.maxKey
  read : ∀ i block, a.blocks[i]? = some block →
    t.readBlockFromDisk codec i = .ok (encodeBlock block)
  fits : ∀ e ∈ a.entries, EntryFits e
  bound : a.entries.length ≤ t.entriesBound

section Reading

variable {codec : TableCodec} {compression : CompressionType}

/-- The place of a block is below `2 ^ 64`. -/
theorem length_stored_lt {blocks : List (List Entry)}
    (hfits : ∀ block ∈ blocks, BlockFits codec compression block)
    (hcount : blocks.length < 2 ^ 32) :
    (blocks.flatMap (storedBlock codec compression)).length < 2 ^ 64 := by
  have hle : (blocks.flatMap (storedBlock codec compression)).length ≤ blocks.length * 2 ^ 32 := by
    clear hcount
    induction blocks with
    | nil => rfl
    | cons block rest ih =>
        have hrest := ih fun block hblock => hfits block (List.mem_cons_of_mem _ hblock)
        have hown := (hfits block (List.mem_cons_self ..)).2
        rw [List.flatMap_cons, List.length_append, List.length_cons]
        omega
  omega

/-- The file ends with a place and the magic number. -/
def HasFooter (file : Bytes) (metaOffset : ℕ) : Prop :=
  metaOffset < 2 ^ 64 ∧ ∃ front, file = front ++ (toLE 8 metaOffset ++ toLE 4 magic)

/-- What `open` takes from a footer. -/
theorem footer_eq {file : Bytes} {metaOffset : ℕ} (h : HasFooter file metaOffset) :
    12 ≤ file.length ∧ ofLE (file.drop (file.length - 4)) = magic ∧
      ofLE ((file.drop (file.length - 12)).take 8) = metaOffset := by
  obtain ⟨hlt, front, rfl⟩ := h
  have hlength : (front ++ (toLE 8 metaOffset ++ toLE 4 magic)).length = front.length + 12 := by
    simp
  have hmagic : front.length + 12 - 4 = (front ++ toLE 8 metaOffset).length := by simp
  rw [hlength]
  refine ⟨by omega, ?_, ?_⟩
  · rw [hmagic, ← List.append_assoc, List.drop_left]
    exact ofLE_toLE_of_lt (by decide)
  · rw [Nat.add_sub_cancel, List.drop_left, List.take_left' (length_toLE 8 _)]
    exact ofLE_toLE_of_lt (by simpa using hlt)

theorem openFile_of_hasFooter (id : ℕ) {file : Bytes} {metaOffset : ℕ}
    (h : HasFooter file metaOffset) :
    openFile id file =
      match seekStart file metaOffset with
      | none => .error (.error .io)
      | some metaData =>
          if metaData.length < 12 then .error .panic
          else
            match decodeMetadata (metaData.take (metaData.length - 12)) with
            | none => .error .panic
            | some (blockMetas, bloom, compression, minKey, maxKey) =>
                .ok { id, file, blockMetas, bloom, compression, minKey, maxKey } := by
  obtain ⟨hlength, hmagic, hoffset⟩ := footer_eq h
  have hlong : ¬file.length < 4 := by omega
  have hlong' : ¬file.length < 12 := by omega
  simp only [openFile, if_neg hlong, hmagic, ne_eq, not_true_eq_false, if_false, if_neg hlong',
    hoffset]

/-- Taking a file apart that ends with its metadata. -/
theorem openFile_eq {id : ℕ} {blocks metadata : Bytes} {result : List BlockMeta × BloomFilter ×
    CompressionType × Bytes × Bytes} (hblocks : blocks.length < 2 ^ 64)
    (hdecode : decodeMetadata metadata = some result) :
    openFile id (blocks ++ (metadata ++ (toLE 8 blocks.length ++ toLE 4 magic))) =
      .ok { id, file := blocks ++ (metadata ++ (toLE 8 blocks.length ++ toLE 4 magic))
            blockMetas := result.1, bloom := result.2.1, compression := result.2.2.1
            minKey := result.2.2.2.1, maxKey := result.2.2.2.2 } := by
  have hfooter : HasFooter (blocks ++ (metadata ++ (toLE 8 blocks.length ++ toLE 4 magic)))
      blocks.length := ⟨hblocks, blocks ++ metadata, (List.append_assoc ..).symm⟩
  have hlength : (metadata ++ (toLE 8 blocks.length ++ toLE 4 magic)).length =
      metadata.length + 12 := by
    simp
  have hlong : ¬ metadata.length + 12 < 12 := by omega
  rw [openFile_of_hasFooter id hfooter, seekStart_append]
  simp only [hlength, if_neg hlong, Nat.add_sub_cancel, List.take_left, hdecode]

/-- Reading a block that has its checksum. -/
theorem readBlockFromDisk_of_frame {t : TableFile} {idx : ℕ} {m : BlockMeta} {data rest : Bytes}
    (hm : t.blockMetas[idx]? = some m)
    (hseek : seekStart t.file m.offset = some (codec.frame data ++ rest))
    (hlength : m.length = (codec.frame data).length) :
    t.readBlockFromDisk codec idx =
      codec.decompressBlock t.compression data m.uncompressedLength := by
  have hsplit : (seekStart t.file m.offset).bind (splitAt? m.length) =
      some (data ++ toLE 4 (codec.crc32 data).toNat, rest) := by
    rw [hseek]
    exact splitAt?_append hlength.symm _
  have hlong : (data ++ toLE 4 (codec.crc32 data).toNat).length = data.length + 4 := by
    rw [List.length_append, length_toLE]
  have hcrc : ofLE (toLE 4 (codec.crc32 data).toNat) = (codec.crc32 data).toNat :=
    ofLE_toLE_of_lt (codec.crc32 data).toNat_lt
  have hshort : ¬ data.length + 4 < 4 := by omega
  simp only [readBlockFromDisk, hm, hsplit, hlong, if_neg hshort, Nat.add_sub_cancel]
  rw [List.take_left, List.drop_left, hcrc, if_neg (not_not.mpr rfl)]

/-- Reading a block that was framed at its place. -/
theorem readBlockFromDisk_eq (hcodec : codec.Inverts) {t : TableFile} {i : ℕ} {m : BlockMeta}
    {block : List Entry} (before rest : Bytes) (hm : t.blockMetas[i]? = some m)
    (hcompression : t.compression = compression)
    (hfile : t.file = before ++ (storedBlock codec compression block ++ rest))
    (hoffset : m.offset = before.length)
    (hlength : m.length = (storedBlock codec compression block).length)
    (huncompressed : m.uncompressedLength = (encodeBlock block).length)
    (hfits : (encodeBlock block).length < 2 ^ 32) :
    t.readBlockFromDisk codec i = .ok (encodeBlock block) := by
  have hseek : seekStart t.file m.offset = some (storedBlock codec compression block ++ rest) := by
    rw [hfile, hoffset, seekStart_append]
  rw [readBlockFromDisk_of_frame hm hseek hlength, hcompression, huncompressed]
  exact TableCodec.decompressBlock_compressBlock hcodec compression hfits

theorem Written.metas_fit {b : Builder} {a : SSTableBuilder} (h : Written codec compression b a)
    (hkeys : KeysFit b) : ∀ m ∈ b.blockMetas, m.Fits := by
  intro m hm
  obtain ⟨hoffset, hlength, huncompressed⟩ := h.fits m hm
  obtain ⟨hfirst, hlast⟩ := hkeys.metas m hm
  exact ⟨hoffset, hlength, huncompressed, hfirst, hlast⟩

/-- The entries of the blocks are no more than the metadata allows. -/
theorem length_entries_le {blocks : List (List Entry)} {metas : List BlockMeta}
    (hlength : metas.length = blocks.length)
    (hdescribes : ∀ (i : ℕ) (m : BlockMeta), metas[i]? = some m → ∃ block, blocks[i]? = some block ∧
      m.uncompressedLength = (encodeBlock block).length) :
    blocks.flatten.length ≤ (metas.map fun m => max m.length m.uncompressedLength).sum := by
  induction blocks generalizing metas with
  | nil => exact Nat.zero_le _
  | cons block blocks ih =>
      obtain ⟨m, metas, rfl⟩ := List.exists_cons_of_length_eq_add_one hlength
      have hlength : metas.length = blocks.length := by simpa using hlength
      have hrest := ih hlength fun i own hown => hdescribes (i + 1) own hown
      obtain ⟨own, hown, huncompressed⟩ := hdescribes 0 m rfl
      obtain rfl : block = own := by simpa using hown
      have hentries := length_le_length_encodeBlock block
      rw [List.flatten_cons, List.length_append, List.map_cons, List.sum_cons]
      omega

/-- Opening what has been written, when all blocks have been. -/
theorem Written.openFile {b : Builder} {a : SSTableBuilder} (h : Written codec compression b a)
    (hkeys : KeysFit b) (hcodec : codec.Inverts) (id : ℕ) {table : SSTable}
    (hmetas : table.blockMetas = a.blockMetas) (hblocks : table.blocks = a.blocks)
    (hbloom : table.bloom = a.bloom) (hfits : Fits codec compression table) :
    ∃ t, openFile id (b.written ++ (encodeMetadata b.compression b.blockMetas b.bloom ++
      (toLE 8 b.blockOffset ++ toLE 4 magic))) = .ok t ∧ Stores codec t table := by
  have hblocksFit := hfits.blocks
  have hcount := hfits.numBlocks
  have hbits := hfits.bloom
  rw [hblocks] at hblocksFit hcount
  rw [hbloom, ← h.bloom] at hbits
  have hhashes : b.bloom.numHashes < 2 ^ 32 := by
    rw [hkeys.numHashes]
    decide
  have hwritten : b.written.length < 2 ^ 64 := by
    rw [h.written]
    exact length_stored_lt hblocksFit hcount
  have hoffset : b.blockOffset = b.written.length := by
    rw [h.blockOffset hblocksFit, Nat.mod_eq_of_lt hwritten]
  have hdecode := decodeMetadata_encodeMetadata (h.metas_fit hkeys) (h.length ▸ hcount) hhashes
    hbits b.compression
  rw [hoffset]
  refine ⟨_, openFile_eq hwritten hdecode, ?_, ?_, ?_, ?_, ?_, hfits.entries, ?_⟩
  · rw [hbloom, h.bloom]
  · rw [hmetas, h.keys]
  · rw [SSTable.minKey, hmetas, ← h.keys, List.head?_map, Option.map_map]
    rfl
  · rw [SSTable.maxKey, hmetas, ← h.keys, List.getLast?_map, Option.map_map]
    rfl
  · intro i block hblock
    rw [hblocks] at hblock
    have hi : i < b.blockMetas.length := by
      rw [h.length]
      exact (List.getElem?_eq_some_iff.mp hblock).1
    have hm : b.blockMetas[i]? = some b.blockMetas[i] := List.getElem?_eq_getElem hi
    obtain ⟨own, hown, hplace, hlength, huncompressed⟩ := h.describes hblocksFit i _ hm
    obtain rfl : own = block := Option.some.inj (hown.symm.trans hblock)
    -- the file is what lies before the block, the block, and the rest
    have hsplit : b.written = (a.blocks.take i).flatMap (storedBlock codec compression) ++
        (storedBlock codec compression own ++
          (a.blocks.drop (i + 1)).flatMap (storedBlock codec compression)) := by
      obtain ⟨hlt, hget⟩ := List.getElem?_eq_some_iff.mp hblock
      rw [h.written, ← hget, ← List.flatMap_cons, ← List.drop_eq_getElem_cons hlt,
        ← List.flatMap_append, List.take_append_drop]
    have hbefore : ((a.blocks.take i).flatMap (storedBlock codec compression)).length <
        2 ^ 64 := by
      rw [hsplit, List.length_append] at hwritten
      omega
    rw [Nat.mod_eq_of_lt hbefore] at hplace
    have hfile : b.written ++ (encodeMetadata b.compression b.blockMetas b.bloom ++
        (toLE 8 b.written.length ++ toLE 4 magic)) =
        (a.blocks.take i).flatMap (storedBlock codec compression) ++
          (storedBlock codec compression own ++
            ((a.blocks.drop (i + 1)).flatMap (storedBlock codec compression) ++
              (encodeMetadata b.compression b.blockMetas b.bloom ++
                (toLE 8 b.written.length ++ toLE 4 magic)))) := by
      conv_lhs => lhs; rw [hsplit]
      rw [List.append_assoc, List.append_assoc]
    exact readBlockFromDisk_eq hcodec _ _ hm h.sameCompression hfile hplace hlength huncompressed
      (hblocksFit own (List.mem_of_getElem? hblock)).1
  · rw [SSTable.entries, hblocks]
    refine length_entries_le h.length ?_
    intro i m hm
    obtain ⟨block, hblock, _, _, huncompressed⟩ := h.describes hblocksFit i m hm
    exact ⟨block, hblock, huncompressed⟩

/-- The file that is built opens as the table that is built. -/
theorem openFile_build (hcodec : codec.Inverts) (id estimatedKeys : ℕ)
    (compression : CompressionType) (entries : List Entry)
    (hfits : Fits codec compression (SSTableBuilder.build id estimatedKeys entries)) :
    ∃ t, openFile id (Builder.build codec id estimatedKeys compression entries) = .ok t ∧
      Stores codec t (SSTableBuilder.build id estimatedKeys entries) := by
  have hentries : ∀ e ∈ entries, e.1.length < 2 ^ 32 := by
    intro e he
    rw [← (SSTableBuilder.holds_build id estimatedKeys entries).flatten_blocks] at he
    exact (hfits.entries e he).1
  have hwritten := (written_new codec compression id estimatedKeys).foldl_add entries
  have hnew : KeysFit (Builder.newWithCompression id estimatedKeys compression) :=
    by
    refine ⟨fun m hm => absurd hm List.not_mem_nil, ?_, rfl⟩
    intro key hkey
    contradiction
  have hkeys := hnew.foldl_add codec hentries
  unfold Builder.build SSTableBuilder.build at *
  set b := entries.foldl (fun b e => b.add codec e.1 e.2)
    (Builder.newWithCompression id estimatedKeys compression)
  set a := entries.foldl (fun a e => a.add e.1 e.2) (SSTableBuilder.new id estimatedKeys)
  have hlast : (b.blockMetas.getLast?.map BlockMeta.lastKey).getD [] =
      (a.blockMetas.getLast?.map Crabstash.BlockMeta.lastKey).getD [] := by
    rw [← hwritten.keys, List.getLast?_map, Option.map_map]
    rfl
  have hkeys := hkeys.flushBlock codec hkeys.lastKey
  have hwritten := hwritten.flushBlock ((b.blockMetas.getLast?.map BlockMeta.lastKey).getD [])
  rw [hlast] at hwritten hkeys
  rw [Builder.finish, hlast]
  exact hwritten.openFile hkeys hcodec id rfl rfl rfl hfits

end Reading

end TableFile
end Crabstash

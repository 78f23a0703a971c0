import Crabstash.Storage.TableFile

/-!
# What the bytes of a table hold

Every number is one that some bytes stand for, so a reader of the format can fail for one reason
only, that bytes are missing.  It reads a value exactly where the bytes begin with that value as
the builder would write it: an entry (`decodeEntry_eq_some_iff`), the metadata
(`decodeMetadata_eq_some_iff`), a block with its checksum (`readBlockFromDisk_eq_ok_iff`).

So whether reading a file panics can be told from what there is in the file.  Metadata that is cut
short panics, and a block of less than four bytes, and an entry that is cut short.  A block that is
cut short does not, nor one with a wrong checksum.
-/

namespace Crabstash

open LittleEndian

namespace TableFile

/-! ## Entries -/

/-- The bytes are those of entries. -/
def IsBlock (block : Bytes) : Prop :=
  ∃ entries : List Entry, (∀ e ∈ entries, EntryFits e) ∧ block = encodeBlock entries

/-- The bytes are those of entries at least up to an entry of the key. -/
def Searchable (searchKey block : Bytes) : Prop :=
  ∃ before : List Entry, (∀ e ∈ before, EntryFits e) ∧
    (block = encodeBlock before ∨ ∃ value rest, EntryFits (searchKey, value) ∧
      block = encodeBlock before ++ (encodeEntry (searchKey, value) ++ rest))

theorem encodeBlock_cons (e : Entry) (entries : List Entry) :
    encodeBlock (e :: entries) = encodeEntry e ++ encodeBlock entries := List.flatMap_cons

theorem isBlock_nil : IsBlock [] := ⟨[], fun _ he => absurd he List.not_mem_nil, rfl⟩

theorem isBlock_append_iff {e : Entry} (hfits : EntryFits e) {rest : Bytes} :
    IsBlock (encodeEntry e ++ rest) ↔ IsBlock rest := by
  constructor
  · rintro ⟨entries, hentries, heq⟩
    cases entries with
    | nil =>
        rw [show encodeBlock [] = [] from rfl, List.append_eq_nil_iff] at heq
        exact absurd heq.1 (encodeEntry_ne_nil e)
    | cons e' entries =>
        obtain ⟨hown, hentries⟩ := List.forall_mem_cons.mp hentries
        have hdecode : decodeEntry (encodeEntry e ++ rest) = some (e, rest) :=
          decodeEntry_eq_some_iff.mpr ⟨hfits, rfl⟩
        rw [heq, encodeBlock_cons, decodeEntry_eq_some_iff.mpr ⟨hown, rfl⟩] at hdecode
        exact ⟨entries, hentries, (Prod.mk.inj (Option.some.inj hdecode)).2.symm⟩
  · rintro ⟨entries, hentries, rfl⟩
    exact ⟨e :: entries, List.forall_mem_cons.mpr ⟨hfits, hentries⟩, (encodeBlock_cons ..).symm⟩

theorem decodeEntry_of_isBlock {block : Bytes} (h : IsBlock block) (hne : block ≠ []) :
    ∃ e rest, decodeEntry block = some (e, rest) ∧ IsBlock rest := by
  obtain ⟨entries, hentries, rfl⟩ := h
  cases entries with
  | nil => exact absurd rfl hne
  | cons e entries =>
      obtain ⟨hfits, hentries⟩ := List.forall_mem_cons.mp hentries
      exact ⟨e, _, decodeEntry_eq_some_iff.mpr ⟨hfits, encodeBlock_cons ..⟩, entries, hentries, rfl⟩

/-- A round of the search takes an entry off the buffer. -/
theorem searchLoop_succ (searchKey : Bytes) (fuel : ℕ) {buf : Bytes} (hne : buf ≠ []) :
    searchLoop searchKey (fuel + 1) buf =
      match decodeEntry buf with
      | none => none
      | some (e, rest) => if e.1 = searchKey then some e.2 else searchLoop searchKey fuel rest := by
  rw [searchLoop, if_neg (by simpa using hne), decodeEntry]
  cases readKey buf with
  | none => rfl
  | some read =>
      obtain ⟨key, valueLen, rest⟩ := read
      simp only [Simd.bytesEqual_iff, Option.bind_eq_bind, Option.bind_some]
      by_cases hkey : key = searchKey
      · by_cases htombstone : valueLen = tombstone
        · simp [hkey, htombstone]
        · simp only [hkey, htombstone, if_true, if_false]
          cases splitAt? valueLen rest <;> simp
      · by_cases htombstone : valueLen = tombstone
        · simp [hkey, htombstone]
        · simp only [hkey, htombstone, if_false]
          cases splitAt? valueLen rest <;> simp [hkey]

theorem searchable_append_iff {searchKey : Bytes} {e : Entry} (hfits : EntryFits e)
    (hkey : e.1 ≠ searchKey) {rest : Bytes} :
    Searchable searchKey (encodeEntry e ++ rest) ↔ Searchable searchKey rest := by
  have hdecode : decodeEntry (encodeEntry e ++ rest) = some (e, rest) :=
    decodeEntry_eq_some_iff.mpr ⟨hfits, rfl⟩
  constructor
  · rintro ⟨before, hbefore, hblock⟩
    cases before with
    | nil =>
        rcases hblock with hnil | ⟨value, rest', hvalue, heq⟩
        · rw [show encodeBlock [] = [] from rfl, List.append_eq_nil_iff] at hnil
          exact absurd hnil.1 (encodeEntry_ne_nil e)
        · rw [show encodeBlock [] = [] from rfl, List.nil_append] at heq
          rw [heq, decodeEntry_eq_some_iff.mpr ⟨hvalue, rfl⟩] at hdecode
          exact absurd (congrArg Prod.fst (Prod.mk.inj (Option.some.inj hdecode)).1).symm hkey
    | cons e' before =>
        obtain ⟨hown, hbefore⟩ := List.forall_mem_cons.mp hbefore
        refine ⟨before, hbefore, ?_⟩
        rcases hblock with heq | ⟨value, rest', hvalue, heq⟩
        · left
          rw [heq, encodeBlock_cons, decodeEntry_eq_some_iff.mpr ⟨hown, rfl⟩] at hdecode
          exact (Prod.mk.inj (Option.some.inj hdecode)).2.symm
        · refine Or.inr ⟨value, rest', hvalue, ?_⟩
          rw [heq, encodeBlock_cons, List.append_assoc,
            decodeEntry_eq_some_iff.mpr ⟨hown, rfl⟩] at hdecode
          exact (Prod.mk.inj (Option.some.inj hdecode)).2.symm
  · rintro ⟨before, hbefore, hblock⟩
    refine ⟨e :: before, List.forall_mem_cons.mpr ⟨hfits, hbefore⟩, ?_⟩
    rw [encodeBlock_cons]
    rcases hblock with rfl | ⟨value, rest', hvalue, rfl⟩
    · exact Or.inl rfl
    · exact Or.inr ⟨value, rest', hvalue, (List.append_assoc ..).symm⟩

/-- Anything searchable that is not empty begins with an entry. -/
theorem exists_decodeEntry_of_searchable {searchKey block : Bytes}
    (h : Searchable searchKey block) (hne : block ≠ []) : decodeEntry block ≠ none := by
  obtain ⟨before, hbefore, hblock⟩ := h
  cases before with
  | nil =>
      rcases hblock with hnil | ⟨value, rest, hvalue, heq⟩
      · exact absurd hnil hne
      · rw [show encodeBlock [] = [] from rfl, List.nil_append] at heq
        rw [heq, decodeEntry_eq_some_iff.mpr ⟨hvalue, rfl⟩]
        simp
  | cons e before =>
      have hfits := (List.forall_mem_cons.mp hbefore).1
      rcases hblock with heq | ⟨value, rest, -, heq⟩
      · rw [heq, encodeBlock_cons, decodeEntry_eq_some_iff.mpr ⟨hfits, rfl⟩]
        simp
      · rw [heq, encodeBlock_cons, List.append_assoc, decodeEntry_eq_some_iff.mpr ⟨hfits, rfl⟩]
        simp

theorem searchLoop_ne_none_iff {searchKey : Bytes} {fuel : ℕ} {buf : Bytes}
    (hfuel : buf.length ≤ fuel) :
    searchLoop searchKey fuel buf ≠ none ↔ Searchable searchKey buf := by
  induction fuel generalizing buf with
  | zero =>
      obtain rfl := List.eq_nil_of_length_eq_zero (Nat.le_zero.mp hfuel)
      exact iff_of_true (by simp [searchLoop])
        ⟨[], fun _ he => absurd he List.not_mem_nil, Or.inl rfl⟩
  | succ fuel ih =>
      by_cases hne : buf = []
      · rw [hne]
        exact iff_of_true (by simp [searchLoop])
          ⟨[], fun _ he => absurd he List.not_mem_nil, Or.inl rfl⟩
      · rw [searchLoop_succ searchKey fuel hne]
        cases hdecode : decodeEntry buf with
        | none =>
            exact iff_of_false (fun h => h rfl) fun h =>
              exists_decodeEntry_of_searchable h hne hdecode
        | some decoded =>
            obtain ⟨e, rest⟩ := decoded
            obtain ⟨hfits, rfl⟩ := decodeEntry_eq_some_iff.mp hdecode
            simp only
            by_cases hkey : e.1 = searchKey
            · rw [if_pos hkey]
              refine iff_of_true (by simp) ⟨[], fun _ he => absurd he List.not_mem_nil, Or.inr ?_⟩
              subst hkey
              exact ⟨e.2, rest, hfits, rfl⟩
            · have hpos := List.length_pos_iff.mpr (encodeEntry_ne_nil e)
              rw [List.length_append] at hfuel
              rw [if_neg hkey, searchable_append_iff hfits hkey]
              exact ih (by omega)

theorem searchBlock_ne_none_iff {block searchKey : Bytes} :
    searchBlock block searchKey ≠ none ↔ Searchable searchKey block :=
  searchLoop_ne_none_iff le_rfl

/-! ## Metadata -/

theorem decodeMeta_eq_some_iff {buf rest : Bytes} {m : BlockMeta} :
    decodeMeta buf = some (m, rest) ↔ m.Fits ∧ buf = encodeMeta m ++ rest := by
  constructor
  · intro h
    simp only [decodeMeta, Option.bind_eq_bind, Option.bind_eq_some_iff, Option.pure_def,
      Option.some.injEq, Prod.mk.injEq] at h
    obtain ⟨⟨offset, buf₁⟩, hoffset, ⟨length, buf₂⟩, hlength, ⟨uncompressedLength, buf₃⟩,
      huncompressed, ⟨firstKeyLen, buf₄⟩, hfirstLen, ⟨firstKey, buf₅⟩, hfirst,
      ⟨lastKeyLen, buf₆⟩, hlastLen, ⟨lastKey, buf₇⟩, hlast, rfl, rfl⟩ := h
    obtain ⟨hoffsetLt, rfl⟩ := readLE_eq_some_iff.mp hoffset
    obtain ⟨hlengthLt, rfl⟩ := readLE_eq_some_iff.mp hlength
    obtain ⟨huncompressedLt, rfl⟩ := readLE_eq_some_iff.mp huncompressed
    obtain ⟨hfirstLt, rfl⟩ := readLE_eq_some_iff.mp hfirstLen
    obtain ⟨rfl, rfl⟩ := splitAt?_eq_some_iff.mp hfirst
    obtain ⟨hlastLt, rfl⟩ := readLE_eq_some_iff.mp hlastLen
    obtain ⟨rfl, rfl⟩ := splitAt?_eq_some_iff.mp hlast
    refine ⟨⟨?_, ?_, ?_, ?_, ?_⟩, ?_⟩
    · simpa using hoffsetLt
    · simpa using hlengthLt
    · simpa using huncompressedLt
    · simpa using hfirstLt
    · simpa using hlastLt
    · simp [encodeMeta]
  · rintro ⟨hfits, rfl⟩
    exact decodeMeta_encodeMeta hfits rest

theorem decodeMetas_eq_some_iff {numBlocks : ℕ} {buf rest : Bytes} {metas : List BlockMeta} :
    decodeMetas numBlocks buf = some (metas, rest) ↔
      metas.length = numBlocks ∧ (∀ m ∈ metas, m.Fits) ∧
        buf = metas.flatMap encodeMeta ++ rest := by
  constructor
  · intro h
    induction numBlocks generalizing buf metas with
    | zero =>
        obtain ⟨rfl, rfl⟩ := Prod.mk.inj (Option.some.inj h)
        exact ⟨rfl, fun _ hm => absurd hm List.not_mem_nil, rfl⟩
    | succ numBlocks ih =>
        simp only [decodeMetas, Option.bind_eq_bind, Option.bind_eq_some_iff, Option.pure_def,
          Option.some.injEq, Prod.mk.injEq] at h
        obtain ⟨⟨m, buf'⟩, hm, ⟨metas', rest'⟩, hmetas, rfl, rfl⟩ := h
        obtain ⟨hfits, rfl⟩ := decodeMeta_eq_some_iff.mp hm
        obtain ⟨hlength, hmetasFit, rfl⟩ := ih hmetas
        refine ⟨?_, List.forall_mem_cons.mpr ⟨hfits, hmetasFit⟩, ?_⟩
        · rw [List.length_cons, hlength]
        · rw [List.flatMap_cons, List.append_assoc]
  · rintro ⟨rfl, hfits, rfl⟩
    exact decodeMetas_encode hfits rest

/-- The bytes are the metadata of the table, with any bytes behind. -/
structure IsMetadata (data : Bytes) (t : TableFile) : Prop where
  begins : ∃ byte rest, CompressionType.fromU8 byte = t.compression ∧
    data = byte :: (toLE 4 t.blockMetas.length ++ (t.blockMetas.flatMap encodeMeta ++
      (toLE 4 t.bloom.numHashes ++ (toLE 4 t.bloom.bits.length ++ (t.bloom.bits ++ rest)))))
  numBlocks : t.blockMetas.length < 2 ^ 32
  metas : ∀ m ∈ t.blockMetas, m.Fits
  numHashes : t.bloom.numHashes < 2 ^ 32
  bloomLen : t.bloom.bits.length < 2 ^ 32
  minKey : t.minKey = (t.blockMetas.head?.map BlockMeta.firstKey).getD []
  maxKey : t.maxKey = (t.blockMetas.getLast?.map BlockMeta.lastKey).getD []

theorem decodeMetadata_eq_some_iff {data : Bytes} {t : TableFile} :
    decodeMetadata data = some (t.blockMetas, t.bloom, t.compression, t.minKey, t.maxKey) ↔
      IsMetadata data t := by
  constructor
  · intro h
    cases data with
    | nil => contradiction
    | cons byte buf =>
        obtain ⟨id, file, blockMetas, ⟨bits, numHashes⟩, compression, minKey, maxKey⟩ := t
        simp only [decodeMetadata, Option.bind_eq_bind, Option.bind_eq_some_iff, Option.pure_def,
          Option.some.injEq, Prod.mk.injEq, BloomFilter.mk.injEq] at h
        obtain ⟨⟨numBlocks, buf₁⟩, hnumBlocks, ⟨metas, buf₂⟩, hmetas, ⟨numHashes', buf₃⟩, hhashes,
          ⟨bloomLen, buf₄⟩, hbloomLen, ⟨bits', rest⟩, hbits, rfl, ⟨rfl, rfl⟩, hcompression, hmin,
          hmax⟩ := h
        obtain ⟨hnumBlocksLt, rfl⟩ := readLE_eq_some_iff.mp hnumBlocks
        obtain ⟨rfl, hfits, rfl⟩ := decodeMetas_eq_some_iff.mp hmetas
        obtain ⟨hhashesLt, rfl⟩ := readLE_eq_some_iff.mp hhashes
        obtain ⟨hbloomLenLt, rfl⟩ := readLE_eq_some_iff.mp hbloomLen
        obtain ⟨rfl, rfl⟩ := splitAt?_eq_some_iff.mp hbits
        refine ⟨⟨byte, rest, hcompression, rfl⟩, ?_, hfits, ?_, ?_, hmin.symm, hmax.symm⟩
        · simpa using hnumBlocksLt
        · simpa using hhashesLt
        · simpa using hbloomLenLt
  · intro h
    obtain ⟨byte, rest, hcompression, rfl⟩ := h.begins
    have hnumBlocks : t.blockMetas.length < 256 ^ 4 := by simpa using h.numBlocks
    have hhashes : t.bloom.numHashes < 256 ^ 4 := by simpa using h.numHashes
    have hbloomLen : t.bloom.bits.length < 256 ^ 4 := by simpa using h.bloomLen
    simp [decodeMetadata, readLE_toLE hnumBlocks, decodeMetas_encode h.metas, readLE_toLE hhashes,
      readLE_toLE hbloomLen, splitAt?_append, hcompression, h.minKey, h.maxKey]

/-! ## Files -/

/-- There is no place of the metadata, or one the system does not go to. -/
def Rejected (file : Bytes) : Prop :=
  ∀ metaOffset, HasFooter file metaOffset → seekStart file metaOffset = none

/-- The metadata of the table lies at the place that the file gives, in front of it. -/
def Carries (id : ℕ) (file : Bytes) (t : TableFile) : Prop :=
  t.id = id ∧ t.file = file ∧ ∃ blocks metadata, blocks.length < 2 ^ 64 ∧ IsMetadata metadata t ∧
    file = blocks ++ (metadata ++ (toLE 8 blocks.length ++ toLE 4 magic))

theorem hasFooter_of_magic {file : Bytes} (hlength : 12 ≤ file.length)
    (hmagic : ofLE (file.drop (file.length - 4)) = magic) :
    HasFooter file (ofLE ((file.drop (file.length - 12)).take 8)) := by
  have hoffset : ((file.drop (file.length - 12)).take 8).length = 8 := by
    rw [List.length_take, List.length_drop]
    omega
  have hend : (file.drop (file.length - 4)).length = 4 := by
    rw [List.length_drop]
    omega
  refine ⟨?_, file.take (file.length - 12), ?_⟩
  · have hlt := ofLE_lt ((file.drop (file.length - 12)).take 8)
    rw [hoffset] at hlt
    exact hlt
  · have hplace := toLE_ofLE ((file.drop (file.length - 12)).take 8)
    have hnumber := toLE_ofLE (file.drop (file.length - 4))
    have hsplit : file.length - 12 + 8 = file.length - 4 := by omega
    rw [hoffset] at hplace
    rw [hend, hmagic] at hnumber
    rw [hplace, hnumber, ← hsplit, ← List.drop_drop, List.take_append_drop, List.take_append_drop]

theorem openFile_of_rejected (id : ℕ) {file : Bytes} (h : Rejected file) :
    ∃ e, openFile id file = .error (.error e) := by
  by_cases hlength : 12 ≤ file.length
  · by_cases hmagic : ofLE (file.drop (file.length - 4)) = magic
    · have hfooter := hasFooter_of_magic hlength hmagic
      rw [openFile_of_hasFooter id hfooter, h _ hfooter]
      exact ⟨_, rfl⟩
    · rw [openFile, if_neg (by omega), if_pos hmagic]
      exact ⟨_, rfl⟩
  · rw [openFile, if_pos (not_le.mp hlength)]
    split
    · exact ⟨_, rfl⟩
    · split
      · exact ⟨_, rfl⟩
      · exact ⟨_, rfl⟩

theorem openFile_of_carries {id : ℕ} {file : Bytes} {t : TableFile} (h : Carries id file t) :
    openFile id file = .ok t := by
  obtain ⟨rfl, hfile, blocks, metadata, hblocks, hmetadata, hlayout⟩ := h
  have hopen : openFile t.id _ = _ :=
    openFile_eq hblocks (decodeMetadata_eq_some_iff.mpr hmetadata)
  rw [← hlayout] at hopen
  rw [hopen, ← hfile]

/-- Opening panics, or there is no metadata to go to, or it is whole. -/
theorem openFile_cases (id : ℕ) (file : Bytes) :
    Rejected file ∨ openFile id file = .error .panic ∨ ∃ t, Carries id file t := by
  by_cases hrejected : Rejected file
  · exact Or.inl hrejected
  right
  simp only [Rejected, not_forall] at hrejected
  obtain ⟨metaOffset, hfooter, hseek⟩ := hrejected
  obtain ⟨metaData, hseek⟩ := Option.ne_none_iff_exists'.mp hseek
  obtain rfl : file.drop metaOffset = metaData := by
    rw [seekStart] at hseek
    split at hseek
    · contradiction
    · exact Option.some.inj hseek
  rw [openFile_of_hasFooter id hfooter, hseek]
  by_cases hshort : (file.drop metaOffset).length < 12
  · exact Or.inl (if_pos hshort)
  simp only [if_neg hshort]
  cases hdecode : decodeMetadata
      ((file.drop metaOffset).take ((file.drop metaOffset).length - 12)) with
  | none => exact Or.inl rfl
  | some result =>
      -- the place is within the file, and what lies between it and the footer is the metadata
      obtain ⟨blockMetas, bloom, compression, minKey, maxKey⟩ := result
      obtain ⟨hlt, front, rfl⟩ := hfooter
      have hlength : (front ++ (toLE 8 metaOffset ++ toLE 4 magic)).length =
          front.length + 12 := by simp
      rw [List.length_drop, hlength] at hshort hdecode
      have hle : metaOffset ≤ front.length := by omega
      have hmetadata : front.length + 12 - metaOffset - 12 = (front.drop metaOffset).length := by
        rw [List.length_drop]
        omega
      rw [hmetadata, List.drop_append_of_le_length hle, List.take_left] at hdecode
      have hplace : (front.take metaOffset).length = metaOffset := List.length_take_of_le hle
      refine Or.inr ⟨⟨id, _, blockMetas, bloom, compression, minKey, maxKey⟩, rfl, rfl,
        front.take metaOffset, front.drop metaOffset, ?_, ?_, ?_⟩
      · rwa [hplace]
      · exact decodeMetadata_eq_some_iff.mp hdecode
      · rw [hplace, ← List.append_assoc (front.take metaOffset), List.take_append_drop]

theorem openFile_eq_ok_iff {id : ℕ} {file : Bytes} {t : TableFile} :
    openFile id file = .ok t ↔ Carries id file t := by
  refine ⟨fun h => ?_, openFile_of_carries⟩
  rcases openFile_cases id file with hrejected | hpanic | ⟨t', ht'⟩
  · obtain ⟨e, he⟩ := openFile_of_rejected id hrejected
    rw [he] at h
    contradiction
  · rw [hpanic] at h
    contradiction
  · rw [openFile_of_carries ht'] at h
    obtain rfl := Except.ok.inj h
    exact ht'

theorem openFile_ne_panic_iff {id : ℕ} {file : Bytes} :
    openFile id file ≠ .error .panic ↔ Rejected file ∨ ∃ t, Carries id file t := by
  constructor
  · intro h
    rcases openFile_cases id file with hrejected | hpanic | hcarries
    · exact Or.inl hrejected
    · exact absurd hpanic h
    · exact Or.inr hcarries
  · rintro (hrejected | ⟨t, ht⟩)
    · obtain ⟨e, he⟩ := openFile_of_rejected id hrejected
      rw [he]
      simp
    · rw [openFile_of_carries ht]
      simp

/-! ## Blocks -/

/-- The block at a position is in the file, and these are its bytes after decompression. -/
def HasBlock (codec : TableCodec) (t : TableFile) (idx : ℕ) (block : Bytes) : Prop :=
  ∃ m data rest, t.blockMetas[idx]? = some m ∧
    seekStart t.file m.offset = some (codec.frame data ++ rest) ∧
    m.length = (codec.frame data).length ∧
    codec.decompressBlock t.compression data m.uncompressedLength = .ok block

/-- The block at a position is in the file, and too short for a checksum. -/
def ShortBlock (t : TableFile) (idx : ℕ) : Prop :=
  ∃ m bytes, t.blockMetas[idx]? = some m ∧ seekStart t.file m.offset = some bytes ∧
    m.length < 4 ∧ m.length ≤ bytes.length

section Blocks

variable {codec : TableCodec} {t : TableFile} {idx : ℕ}

theorem readBlockFromDisk_eq_ok_iff {block : Bytes} :
    t.readBlockFromDisk codec idx = .ok block ↔ HasBlock codec t idx block := by
  constructor
  · intro h
    unfold readBlockFromDisk at h
    split at h
    · contradiction
    · next m hm =>
        split at h
        · contradiction
        · next bytes rest hsplit =>
            split at h
            · contradiction
            · next hlong =>
                simp only at h
                split at h
                · contradiction
                · next hcrc =>
                    obtain ⟨bytes', hseek, hsplit⟩ := Option.bind_eq_some_iff.mp hsplit
                    obtain ⟨hlength, rfl⟩ := splitAt?_eq_some_iff.mp hsplit
                    have hframe : codec.frame (bytes.take (bytes.length - 4)) = bytes := by
                      have hend : (bytes.drop (bytes.length - 4)).length = 4 := by
                        rw [List.length_drop]
                        omega
                      have hnumber := toLE_ofLE (bytes.drop (bytes.length - 4))
                      rw [hend, not_not.mp hcrc] at hnumber
                      rw [TableCodec.frame, hnumber, List.take_append_drop]
                    refine ⟨m, _, rest, hm, ?_, ?_, h⟩
                    · rw [hframe, hseek]
                    · rw [hframe, hlength]
  · rintro ⟨m, data, rest, hm, hseek, hlength, hdecompress⟩
    rw [readBlockFromDisk_of_frame hm hseek hlength, hdecompress]

theorem decompressBlock_ne_panic (compression : CompressionType) (data : Bytes) (n : ℕ) :
    codec.decompressBlock compression data n ≠ .error .panic := by
  cases compression with
  | none => simp [TableCodec.decompressBlock]
  | lz4 =>
      simp only [TableCodec.decompressBlock]
      split <;> simp

theorem readBlockFromDisk_eq_panic_iff (hidx : idx < t.blockMetas.length) :
    t.readBlockFromDisk codec idx = .error .panic ↔ ShortBlock t idx := by
  have hm : t.blockMetas[idx]? = some t.blockMetas[idx] := List.getElem?_eq_getElem hidx
  constructor
  · intro h
    simp only [readBlockFromDisk, hm] at h
    split at h
    · simp at h
    · next bytes rest hsplit =>
        obtain ⟨bytes', hseek, hsplit⟩ := Option.bind_eq_some_iff.mp hsplit
        obtain ⟨hlength, rfl⟩ := splitAt?_eq_some_iff.mp hsplit
        split at h
        · next hshort =>
            refine ⟨_, _, hm, hseek, ?_, ?_⟩
            · rwa [← hlength]
            · rw [← hlength, List.length_append]
              exact Nat.le_add_right ..
        · split at h
          · simp at h
          · exact (decompressBlock_ne_panic _ _ _ h).elim
  · rintro ⟨m, bytes, hm', hseek, hshort, hle⟩
    obtain ⟨field, rest, hsplit⟩ : ∃ field rest, splitAt? m.length bytes = some (field, rest) :=
      ⟨_, _, if_pos hle⟩
    have hlength := (splitAt?_eq_some_iff.mp hsplit).1
    simp only [readBlockFromDisk, hm', hseek, Option.bind_some, hsplit]
    rw [if_pos (hlength ▸ hshort)]

theorem HasBlock.unique {block block' : Bytes} (h : HasBlock codec t idx block)
    (h' : HasBlock codec t idx block') : block = block' := by
  rw [← readBlockFromDisk_eq_ok_iff] at h h'
  exact Except.ok.inj (h.symm.trans h')

/-- A block is too short, or there is no reading it, or it is read. -/
theorem readBlockFromDisk_cases (codec : TableCodec) (hidx : idx < t.blockMetas.length) :
    (ShortBlock t idx ∧ t.readBlockFromDisk codec idx = .error .panic) ∨
    (¬ShortBlock t idx ∧ (∀ block, ¬HasBlock codec t idx block) ∧
      ∃ e, t.readBlockFromDisk codec idx = .error (.error e)) ∨
    (¬ShortBlock t idx ∧ ∃ block, HasBlock codec t idx block ∧
      t.readBlockFromDisk codec idx = .ok block) := by
  have hshort : t.readBlockFromDisk codec idx = .error .panic ↔ ShortBlock t idx :=
    readBlockFromDisk_eq_panic_iff hidx
  have hblock : ∀ block, t.readBlockFromDisk codec idx = .ok block ↔ HasBlock codec t idx block :=
    fun _ => readBlockFromDisk_eq_ok_iff
  cases hread : t.readBlockFromDisk codec idx with
  | ok block =>
      rw [hread] at hshort
      refine Or.inr (Or.inr ⟨?_, block, (hblock block).mp hread, rfl⟩)
      intro h
      cases hshort.mpr h
  | error failure =>
      rw [hread] at hshort
      cases failure with
      | panic => exact Or.inl ⟨hshort.mp rfl, rfl⟩
      | error e =>
          refine Or.inr (Or.inl ⟨?_, ?_, e, rfl⟩)
          · intro h
            cases hshort.mpr h
          · intro block h
            rw [← hblock, hread] at h
            contradiction

end Blocks

end TableFile
end Crabstash

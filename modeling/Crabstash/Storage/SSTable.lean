import Mathlib.Data.List.Pairwise
import Crabstash.Storage.Bloom
import Crabstash.Foundations.BinarySearch

/-!
# SSTables

`SSTable` and `SSTableBuilder` of `sstable.rs`.  A table is a sequence of
blocks; the builder cuts a block as soon as its encoding reaches `BLOCK_SIZE`
bytes, wherever that falls.  A block is kept here as the list of entries its
bytes decode to, and only the part of a block's metadata that a lookup reads is
kept: the first and the last key.  Entries carry the key data and a value or a
tombstone; the timestamps of the memtable are not written.

`SSTable.Holds` collects what building from a list of entries establishes, and
`get_eq` is the lookup: on entries sorted by key it finds the first entry of the
key, provided that the entries of that key have not been cut in two by a block
boundary (`Unsplit`).  The proviso is needed.  `find_block` goes to the *last*
block whose first key is not above the key searched for, so of a key spread over
two blocks it sees the later, older part.
-/

namespace Crabstash

/-- Key data and value; `none` is the tombstone marker `u32::MAX`. -/
abbrev Entry := Bytes × Option Bytes

/-- The entry of a block in the index of its table. -/
structure BlockMeta where
  firstKey : Bytes
  lastKey : Bytes
  deriving DecidableEq, Repr

/-- A table with its entries block by block. -/
structure SSTable where
  id : ℕ
  blockMetas : List BlockMeta
  blocks : List (List Entry)
  bloom : BloomFilter
  deriving DecidableEq, Repr

/-! ## Reading -/

namespace SSTable

/-- `min_key`: the first key of the first block. -/
def minKey (t : SSTable) : Bytes := (t.blockMetas.head?.map BlockMeta.firstKey).getD []

/-- `max_key`: the last key of the last block. -/
def maxKey (t : SSTable) : Bytes := (t.blockMetas.getLast?.map BlockMeta.lastKey).getD []

/-- All entries in file order. -/
def entries (t : SSTable) : List Entry := t.blocks.flatten

/-- `find_block`: the block at the position that the binary search reports, or the one in front
of it. -/
def findBlock (t : SSTable) (key : Bytes) : ℕ :=
  match BinarySearch.binarySearchBy t.blockMetas fun block =>
      Simd.compareBytes block.firstKey key with
  | .ok idx => idx
  | .error idx => idx - 1

/-- The entry loop of `search_block`; a tombstone is reported as `None`. -/
def searchBlock (searchKey : Bytes) : List Entry → Option Bytes
  | [] => none
  | (key, value) :: rest =>
      if Simd.bytesEqual key searchKey then value else searchBlock searchKey rest

/-- `read_block`. -/
def readBlock (t : SSTable) (idx : ℕ) : List Entry := t.blocks.getD idx []

/-- `SSTable::get`. -/
def get (t : SSTable) (key : Bytes) : Option Bytes :=
  if !t.bloom.mayContain key then none
  else
    let blockIdx := t.findBlock key
    if t.blockMetas.length ≤ blockIdx then none
    else searchBlock key (t.readBlock blockIdx)

end SSTable

/-! ## Building -/

/-- A table being written; `currentBlock` has not been flushed yet. -/
structure SSTableBuilder where
  id : ℕ
  blockMetas : List BlockMeta
  blocks : List (List Entry)
  currentBlock : List Entry
  blockFirstKey : Option Bytes
  bloom : BloomFilter
  numKeys : ℕ

namespace SSTableBuilder

/-- `BLOCK_SIZE`. -/
def blockSize : ℕ := 4096

/-- The bytes `add` appends for one entry: two length fields, the key, the value. -/
def encodedLen (e : Entry) : ℕ := 4 + e.1.length + 4 + (e.2.map List.length).getD 0

/-- How long the block is in the file. -/
def blockLen (block : List Entry) : ℕ := (block.map encodedLen).sum

/-- `SSTableBuilder::new`. -/
def new (id estimatedKeys : ℕ) : SSTableBuilder :=
  { id, blockMetas := [], blocks := [], currentBlock := [], blockFirstKey := none
    bloom := BloomFilter.new (max estimatedKeys 1), numKeys := 0 }

/-- `flush_block`.  The `unwrap` of the first key cannot fail: it is set by the
first `add` of the block. -/
def flushBlock (b : SSTableBuilder) (lastKey : Bytes) : SSTableBuilder :=
  if b.currentBlock.isEmpty then b
  else
    { b with
      blocks := b.blocks ++ [b.currentBlock]
      blockMetas := b.blockMetas ++ [⟨b.blockFirstKey.getD [], lastKey⟩]
      blockFirstKey := none
      currentBlock := [] }

/-- `add`: a block is flushed once it has reached its size. -/
def add (b : SSTableBuilder) (key : Bytes) (value : Option Bytes) : SSTableBuilder :=
  let b :=
    { b with
      bloom := b.bloom.insert key
      blockFirstKey := b.blockFirstKey.or (some key)
      currentBlock := b.currentBlock ++ [(key, value)]
      numKeys := b.numKeys + 1 }
  if blockSize ≤ blockLen b.currentBlock then b.flushBlock key else b

/-- `finish`.  The last key recorded for a final partial block is that of the
block before it. -/
def finish (b : SSTableBuilder) : SSTable :=
  let b := b.flushBlock ((b.blockMetas.getLast?.map BlockMeta.lastKey).getD [])
  { id := b.id, blockMetas := b.blockMetas, blocks := b.blocks, bloom := b.bloom }

/-- `add` for each entry, then `finish`. -/
def build (id estimatedKeys : ℕ) (entries : List Entry) : SSTable :=
  (entries.foldl (fun b e => b.add e.1 e.2) (new id estimatedKeys)).finish

end SSTableBuilder

/-! ## What building establishes -/

/-- The table was built from `entries`: its blocks are a cutting of them into
non-empty pieces, the block index names the first key of each block, and the
bloom filter has every key. -/
structure SSTable.Holds (t : SSTable) (entries : List Entry) : Prop where
  flatten_blocks : t.blocks.flatten = entries
  blocks_ne_nil : ∀ block ∈ t.blocks, block ≠ []
  firstKeys : t.blockMetas.map (fun m => some m.firstKey) =
    t.blocks.map fun block => block.head?.map Prod.fst
  mayContain : ∀ e ∈ entries, t.bloom.mayContain e.1 = true

namespace SSTableBuilder

/-- The builder after adding `entries`. -/
private structure Adding (b : SSTableBuilder) (entries : List Entry) : Prop where
  flatten_blocks : b.blocks.flatten ++ b.currentBlock = entries
  blocks_ne_nil : ∀ block ∈ b.blocks, block ≠ []
  firstKeys : b.blockMetas.map (fun m => some m.firstKey) =
    b.blocks.map fun block => block.head?.map Prod.fst
  blockFirstKey : b.blockFirstKey = b.currentBlock.head?.map Prod.fst
  bloom_pos : 0 < b.bloom.bits.length
  mayContain : ∀ e ∈ entries, b.bloom.mayContain e.1 = true

private theorem Adding.new (id estimatedKeys : ℕ) : Adding (SSTableBuilder.new id estimatedKeys) [] where
  flatten_blocks := rfl
  blocks_ne_nil := by simp [SSTableBuilder.new]
  firstKeys := rfl
  blockFirstKey := rfl
  bloom_pos := BloomFilter.length_bits_new_pos _
  mayContain := by simp

private theorem Adding.flushBlock {b : SSTableBuilder} {entries : List Entry}
    (h : Adding b entries) (lastKey : Bytes) : Adding (b.flushBlock lastKey) entries := by
  unfold SSTableBuilder.flushBlock
  split
  · exact h
  case isFalse hne =>
    have hne : b.currentBlock ≠ [] := by simpa using hne
    obtain ⟨first, hfirst⟩ := Option.ne_none_iff_exists'.mp (mt List.head?_eq_none_iff.mp hne)
    refine ⟨?_, ?_, ?_, rfl, h.bloom_pos, h.mayContain⟩
    · simpa using h.flatten_blocks
    · intro block hblock
      rcases List.mem_append.mp hblock with hblock | hblock
      · exact h.blocks_ne_nil block hblock
      · rw [List.mem_singleton.mp hblock]
        exact hne
    · simp [h.firstKeys, h.blockFirstKey, hfirst]

private theorem Adding.add {b : SSTableBuilder} {entries : List Entry} (h : Adding b entries)
    (key : Bytes) (value : Option Bytes) : Adding (b.add key value) (entries ++ [(key, value)]) := by
  have hadded : Adding
      { b with
        bloom := b.bloom.insert key
        blockFirstKey := b.blockFirstKey.or (some key)
        currentBlock := b.currentBlock ++ [(key, value)]
        numKeys := b.numKeys + 1 } (entries ++ [(key, value)]) := by
    refine ⟨?_, h.blocks_ne_nil, h.firstKeys, ?_, ?_, ?_⟩
    · simp only [← h.flatten_blocks, List.append_assoc]
    · rw [h.blockFirstKey]
      cases b.currentBlock <;> rfl
    · rw [BloomFilter.length_bits_insert]
      exact h.bloom_pos
    · intro e he
      rcases List.mem_append.mp he with he | he
      · exact BloomFilter.mayContain_insert (h.mayContain e he) key
      · rw [List.mem_singleton.mp he]
        exact BloomFilter.mayContain_insert_self h.bloom_pos key
  unfold SSTableBuilder.add
  simp only
  split
  · exact hadded.flushBlock key
  · exact hadded

private theorem Adding.foldl_add {b : SSTableBuilder} {done : List Entry} (h : Adding b done)
    (entries : List Entry) :
    Adding (entries.foldl (fun b e => b.add e.1 e.2) b) (done ++ entries) := by
  induction entries generalizing b done with
  | nil => simpa using h
  | cons e rest ih =>
      have hrest := ih (h.add e.1 e.2)
      simpa using hrest

private theorem adding_build (id estimatedKeys : ℕ) (entries : List Entry) :
    Adding (entries.foldl (fun b e => b.add e.1 e.2) (new id estimatedKeys)) entries := by
  have hadding := (Adding.new id estimatedKeys).foldl_add entries
  rwa [List.nil_append] at hadding

/-- The bloom filter has bits to look at. -/
theorem bloom_build_pos (id estimatedKeys : ℕ) (entries : List Entry) :
    0 < (build id estimatedKeys entries).bloom.bits.length :=
  ((adding_build id estimatedKeys entries).flushBlock _).bloom_pos

theorem holds_build (id estimatedKeys : ℕ) (entries : List Entry) :
    (build id estimatedKeys entries).Holds entries := by
  have hadding := adding_build id estimatedKeys entries
  unfold build finish
  set b := entries.foldl (fun b e => b.add e.1 e.2) (new id estimatedKeys)
  set lastKey := (b.blockMetas.getLast?.map BlockMeta.lastKey).getD []
  have hflushed := hadding.flushBlock lastKey
  -- after the last flush the current block is empty, whichever branch it took
  have hempty : (b.flushBlock lastKey).currentBlock = [] := by
    unfold flushBlock
    split
    case isTrue h => simpa using h
    case isFalse => rfl
  refine ⟨?_, hflushed.blocks_ne_nil, hflushed.firstKeys, hflushed.mayContain⟩
  have hflat := hflushed.flatten_blocks
  rwa [hempty, List.append_nil] at hflat

theorem id_build (id estimatedKeys : ℕ) (entries : List Entry) :
    (build id estimatedKeys entries).id = id := by
  have hflush : ∀ (b : SSTableBuilder) lastKey, (b.flushBlock lastKey).id = b.id := by
    intro b lastKey
    unfold flushBlock
    split <;> rfl
  have hadd : ∀ (b : SSTableBuilder) (e : Entry), (b.add e.1 e.2).id = b.id := by
    intro b e
    unfold add
    simp only
    split
    · exact hflush _ _
    · rfl
  have hfold : ∀ b : SSTableBuilder,
      (entries.foldl (fun b e => b.add e.1 e.2) b).id = b.id := by
    induction entries with
    | nil => exact fun b => rfl
    | cons e rest ih => exact fun b => (ih _).trans (hadd b e)
  exact (hflush _ _).trans (hfold _)

end SSTableBuilder

/-! ## The lookup -/

namespace SSTable

theorem searchBlock_eq (key : Bytes) (block : List Entry) :
    searchBlock key block = (block.find? fun e => decide (e.1 = key)).bind Prod.snd := by
  induction block with
  | nil => rfl
  | cons e rest ih =>
      obtain ⟨entryKey, value⟩ := e
      rw [searchBlock, List.find?_cons]
      by_cases heq : entryKey = key
      · simp [heq, (Simd.bytesEqual_iff key key).mpr rfl]
      · have hne : Simd.bytesEqual entryKey key = false := by
          simpa [heq] using (Simd.bytesEqual_iff entryKey key).not
        simp [heq, hne, ih]

/-- The entries of `key` are all in one block. -/
def Unsplit (t : SSTable) (key : Bytes) : Prop :=
  t.blocks.Pairwise fun block block' => ¬ (key ∈ block.map Prod.fst ∧ key ∈ block'.map Prod.fst)

instance (t : SSTable) (key : Bytes) : Decidable (t.Unsplit key) :=
  inferInstanceAs (Decidable (List.Pairwise _ _))

variable {t : SSTable} {es : List Entry} {key : Bytes}

theorem Holds.length_blockMetas (h : t.Holds es) : t.blockMetas.length = t.blocks.length := by
  simpa using congrArg List.length h.firstKeys

/-- The block index at a position names the first entry of the block there. -/
theorem Holds.exists_head (h : t.Holds es) {i : ℕ} (hi : i < t.blocks.length)
    (hi' : i < t.blockMetas.length) :
    ∃ e rest, t.blocks[i] = e :: rest ∧ t.blockMetas[i].firstKey = e.1 := by
  have hne := h.blocks_ne_nil _ (List.getElem_mem hi)
  obtain ⟨e, rest, hblock⟩ := List.exists_cons_of_ne_nil hne
  have hat := congrArg (fun l => l[i]?) h.firstKeys
  simp only [List.getElem?_map, List.getElem?_eq_getElem hi, List.getElem?_eq_getElem hi',
    Option.map_some, hblock, List.head?_cons, Option.some.injEq] at hat
  exact ⟨e, rest, hblock, hat⟩

/-- In a table built from sorted entries, keys grow from block to block. -/
theorem Holds.key_le (h : t.Holds es) (hsorted : es.Pairwise fun a b => a.1 ≤ b.1) {i j : ℕ}
    (hij : i < j) (hj : j < t.blocks.length) {e e' : Entry} (he : e ∈ t.blocks[i])
    (he' : e' ∈ t.blocks[j]) : e.1 ≤ e'.1 := by
  rw [← h.flatten_blocks] at hsorted
  have hblocks := (List.pairwise_flatten.mp hsorted).2
  exact List.pairwise_iff_getElem.mp hblocks i j (by omega) hj hij e he e' he'

theorem Holds.exists_segment (h : t.Holds es) (hsorted : es.Pairwise fun a b => a.1 ≤ b.1)
    (key : Bytes) : ∃ c, BinarySearch.Segment t.blockMetas
      (fun block => Simd.compareBytes block.firstKey key) c := by
  apply BinarySearch.exists_segment
  rw [List.pairwise_iff_getElem]
  intro i j hi hj hij hgt
  have hlen := h.length_blockMetas
  obtain ⟨e, _, hblock, hfirst⟩ := h.exists_head (hlen ▸ hi) hi
  obtain ⟨e', _, hblock', hfirst'⟩ := h.exists_head (hlen ▸ hj) hj
  have hle : e.1 ≤ e'.1 := by
    refine h.key_le hsorted hij (hlen ▸ hj) ?_ ?_
    · rw [hblock]
      exact List.mem_cons_self ..
    · rw [hblock']
      exact List.mem_cons_self ..
  rw [Simd.compareBytes_eq, cmp_eq_gt_iff] at hgt ⊢
  rw [hfirst] at hgt
  rw [hfirst']
  exact lt_of_lt_of_le hgt hle

/-- The block that is searched is the only one that can have the key. -/
theorem Holds.findBlock_spec (h : t.Holds es) (hsorted : es.Pairwise fun a b => a.1 ≤ b.1)
    (hunsplit : t.Unsplit key) {i : ℕ} (hi : i < t.blocks.length) {e : Entry}
    (he : e ∈ t.blocks[i]) (hkey : e.1 = key) : t.findBlock key = i := by
  obtain ⟨c, hseg⟩ := h.exists_segment hsorted key
  have hlen := h.length_blockMetas
  have hfind : t.findBlock key = c - 1 := BinarySearch.floor_binarySearchBy hseg
  rw [hfind]
  obtain ⟨first, rest, hblock, hfirst⟩ := h.exists_head hi (hlen ▸ hi)
  -- the block's first key is at most the key, so it lies within the segment
  have hic : i < c := by
    by_contra hge
    have hgt := hseg.gt i (hlen ▸ hi) (not_lt.mp hge)
    rw [Simd.compareBytes_eq, cmp_eq_gt_iff, hfirst, ← hkey] at hgt
    have hblockSorted : (first :: rest).Pairwise fun a b => a.1 ≤ b.1 := by
      rw [← hblock]
      rw [← h.flatten_blocks] at hsorted
      exact (List.pairwise_flatten.mp hsorted).1 _ (List.getElem_mem hi)
    rw [hblock] at he
    rcases List.mem_cons.mp he with rfl | he
    · exact lt_irrefl _ hgt
    · exact absurd ((List.pairwise_cons.mp hblockSorted).1 e he) (not_le.mpr hgt)
  by_contra hne
  -- otherwise a later block begins with the key as well
  have hlast : c - 1 < t.blocks.length := by
    have := hseg.le_length
    omega
  obtain ⟨first', rest', hblock', hfirst'⟩ := h.exists_head hlast (hlen ▸ hlast)
  have hmem' : first' ∈ t.blocks[c - 1] := by
    rw [hblock']
    exact List.mem_cons_self ..
  have hle : e.1 ≤ first'.1 := h.key_le hsorted (by omega) hlast he hmem'
  have hge : first'.1 ≤ key := by
    have hngt := hseg.ne_gt (c - 1) (hlen ▸ hlast) (by omega)
    rw [Simd.compareBytes_eq, ne_eq, cmp_eq_gt_iff, hfirst'] at hngt
    exact not_lt.mp hngt
  have heq : first'.1 = key := le_antisymm hge (hkey ▸ hle)
  have hapart := List.pairwise_iff_getElem.mp hunsplit i (c - 1) hi hlast (by omega)
  exact hapart ⟨List.mem_map.mpr ⟨e, he, hkey⟩, List.mem_map.mpr ⟨first', hmem', heq⟩⟩

/-- A key the table was not built from is not found. -/
theorem Holds.get_eq_none (h : t.Holds es) (hkey : ∀ e ∈ es, e.1 ≠ key) : t.get key = none := by
  have hblock : ∀ i, searchBlock key (t.readBlock i) = none := by
    intro i
    rw [searchBlock_eq, Option.bind_eq_none_iff]
    intro e he
    have hmem : e ∈ t.readBlock i := List.mem_of_find?_eq_some he
    have heq : e.1 = key := by simpa using List.find?_some he
    refine absurd heq (hkey e ?_)
    rw [readBlock, List.getD_eq_getElem?_getD] at hmem
    cases hget : t.blocks[i]? with
    | none => simp [hget] at hmem
    | some block =>
        rw [hget] at hmem
        rw [← h.flatten_blocks]
        exact List.mem_flatten_of_mem (List.mem_of_getElem? hget) hmem
  unfold get
  simp only [hblock]
  split
  · rfl
  · split <;> rfl

/-- A lookup finds the first entry of the key, if its entries are in one block. -/
theorem Holds.get_eq (h : t.Holds es) (hsorted : es.Pairwise fun a b => a.1 ≤ b.1)
    (hunsplit : t.Unsplit key) :
    t.get key = (es.find? fun e => decide (e.1 = key)).bind Prod.snd := by
  by_cases hkey : ∃ e ∈ es, e.1 = key
  · obtain ⟨e, he, hkey⟩ := hkey
    have hmay : t.bloom.mayContain key = true := hkey ▸ h.mayContain e he
    rw [← h.flatten_blocks] at he
    obtain ⟨block, hblock, hmem⟩ := List.mem_flatten.mp he
    obtain ⟨i, hi, rfl⟩ := List.getElem_of_mem hblock
    have hfind := h.findBlock_spec hsorted hunsplit hi hmem hkey
    have hread : t.readBlock i = t.blocks[i] := by simp [readBlock, hi]
    have hroom : ¬ t.blockMetas.length ≤ i := by
      rw [h.length_blockMetas]
      omega
    have hget : t.get key = searchBlock key t.blocks[i] := by
      simp [get, hmay, hfind, hread, hroom]
    rw [hget, searchBlock_eq]
    -- no block before this one has the key
    have hbefore : (t.blocks.take i).flatten.find? (fun e => decide (e.1 = key)) = none := by
      rw [List.find?_eq_none]
      intro e' he' hkey'
      have hkey' : e'.1 = key := of_decide_eq_true hkey'
      obtain ⟨block', hblock', hmem'⟩ := List.mem_flatten.mp he'
      obtain ⟨j, hj, rfl⟩ := List.getElem_of_mem hblock'
      rw [List.getElem_take] at hmem'
      have hji : j < i := by
        rw [List.length_take] at hj
        omega
      have hfind' := h.findBlock_spec hsorted hunsplit (by omega) hmem' hkey'
      omega
    have hsome : (t.blocks[i].find? fun e => decide (e.1 = key)).isSome := by
      rw [List.find?_isSome]
      exact ⟨e, hmem, decide_eq_true hkey⟩
    have hsplit : es = (t.blocks.take i).flatten ++ (t.blocks[i] ++ (t.blocks.drop (i + 1)).flatten) := by
      rw [← h.flatten_blocks, ← List.flatten_cons, ← List.flatten_append,
        ← List.drop_eq_getElem_cons hi, List.take_append_drop]
    rw [hsplit, List.find?_append, hbefore, Option.none_or, List.find?_append,
      Option.or_of_isSome hsome]
  · push Not at hkey
    rw [h.get_eq_none hkey]
    have hnone : (es.find? fun e => decide (e.1 = key)) = none := by
      rw [List.find?_eq_none]
      intro e he
      simpa using hkey e he
    rw [hnone]
    rfl

/-! ## Tables by their first entries -/

/-- The first entry of the key in the table: its newest version there. -/
def newest (t : SSTable) (key : Bytes) : Option (Option Bytes) :=
  (t.entries.find? fun e => decide (e.1 = key)).map Prod.snd

/-- The table has a version of the key. -/
def Has (t : SSTable) (key : Bytes) : Prop := ∃ e ∈ t.entries, e.1 = key

instance (t : SSTable) (key : Bytes) : Decidable (t.Has key) :=
  inferInstanceAs (Decidable (∃ e ∈ t.entries, e.1 = key))

/-- The table was built from entries in key order. -/
structure Sound (t : SSTable) : Prop where
  holds : t.Holds t.entries
  sorted : t.entries.Pairwise fun a b => a.1 ≤ b.1

theorem Holds.sound (h : t.Holds es) (hsorted : es.Pairwise fun a b => a.1 ≤ b.1) : t.Sound := by
  have hentries : t.entries = es := h.flatten_blocks
  constructor
  · rw [hentries]
    exact h
  · rw [hentries]
    exact hsorted

theorem newest_eq_none (hnot : ¬ t.Has key) : t.newest key = none := by
  rw [newest, Option.map_eq_none_iff, List.find?_eq_none]
  intro e he heq
  exact hnot ⟨e, he, of_decide_eq_true heq⟩

theorem has_of_newest {value : Option Bytes} (hnewest : t.newest key = some value) : t.Has key := by
  by_contra hnot
  rw [newest_eq_none hnot] at hnewest
  contradiction

/-- Where every key has one entry, that is its newest version. -/
theorem newest_of_mem (hincreasing : t.entries.Pairwise fun a b => a.1 < b.1) {e : Entry}
    (he : e ∈ t.entries) : t.newest e.1 = some e.2 := by
  have hdistinct : t.entries.Pairwise fun a b => a.1 ≠ b.1 := hincreasing.imp fun hlt => hlt.ne
  have hsymm : Std.Symm fun a b : Entry => a.1 ≠ b.1 := ⟨fun _ _ hne => hne.symm⟩
  cases hfind : t.entries.find? fun e' => decide (e'.1 = e.1) with
  | none => exact absurd (decide_eq_true rfl) (List.find?_eq_none.mp hfind e he)
  | some e' =>
      have hkey : e'.1 = e.1 := by simpa using List.find?_some hfind
      have hsame : e' = e := by
        by_contra hne
        exact hdistinct.forall (List.mem_of_find?_eq_some hfind) he hne hkey
      rw [newest, hfind, hsame]
      rfl

/-- What is in one of several tables only is found there by every search through them. -/
theorem findSome?_of_only {β : Type} {tables : List SSTable} (ht : t ∈ tables)
    (f : SSTable → Option β) (hothers : ∀ t' ∈ tables, t' ≠ t → f t' = none) :
    tables.findSome? f = f t := by
  cases hf : f t with
  | none =>
      rw [List.findSome?_eq_none_iff]
      intro t' ht'
      by_cases hsame : t' = t
      · rw [hsame]
        exact hf
      · exact hothers t' ht' hsame
  | some b =>
      cases hfind : tables.findSome? f with
      | none =>
          have hnone := List.findSome?_eq_none_iff.mp hfind t ht
          rw [hf] at hnone
          contradiction
      | some b' =>
          obtain ⟨t', ht', hb'⟩ := List.exists_of_findSome?_eq_some hfind
          by_cases hsame : t' = t
          · rw [← hb', hsame, hf]
          · rw [hothers t' ht' hsame] at hb'
            contradiction

end SSTable
end Crabstash

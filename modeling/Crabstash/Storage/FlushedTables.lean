import Crabstash.Storage.BlockCuts
import Crabstash.Storage.ScanFrom
import Crabstash.Storage.TableReads

/-!
# What a flushed table answers

A flush writes every version of every key, newest first, and `SSTableBuilder::add` cuts a block
wherever it is full, also between two versions of one key.  Blocks that begin with the same key
have equal first keys in the index.

`find_block` compares the first keys with `compare_bytes`, and of equal ones the binary search takes
the last: it narrows down to the end of the run that is not above the key.  So a lookup reads the
*last* block that has the key (`get_eq_lastCut`), where the oldest versions are, and answers with
the newest of these.  This is the newest version of all just when the cuts do not fall in between,
or the version behind them has the same value (`get_flushedTable_iff`).
-/

namespace Crabstash

/-- The first entry of the key in the last block that has one. -/
def lastCut (key : Bytes) (blocks : List (List Entry)) : Option Entry :=
  blocks.reverse.findSome? fun block => block.find? fun e => decide (e.1 = key)

theorem lastCut_eq_none_iff {key : Bytes} {blocks : List (List Entry)} :
    lastCut key blocks = none ↔ ∀ e ∈ blocks.flatten, e.1 ≠ key := by
  rw [lastCut, List.findSome?_eq_none_iff]
  constructor
  · intro hnone e he
    obtain ⟨block, hblock, he⟩ := List.mem_flatten.mp he
    simpa using List.find?_eq_none.mp (hnone block (List.mem_reverse.mpr hblock)) e he
  · intro hnone block hblock
    rw [List.find?_eq_none]
    intro e he
    simpa using hnone e (List.mem_flatten_of_mem (List.mem_reverse.mp hblock) he)

namespace SSTable

variable {t : SSTable} {key : Bytes}

/-- The blocks after the one that is searched begin above the key. -/
theorem Sound.ne_of_mem_after (h : t.Sound) {i : ℕ} (hi : t.findBlock key < i)
    (hlt : i < t.blocks.length) {e : Entry} (he : e ∈ t.blocks[i]) : e.1 ≠ key := by
  obtain ⟨c, hseg⟩ := h.holds.exists_segment h.sorted key
  have hlen := h.holds.length_blockMetas
  have hfind : t.findBlock key = c - 1 := BinarySearch.floor_binarySearchBy hseg
  obtain ⟨first, rest, hblock, hhead⟩ := h.holds.exists_head hlt (hlen ▸ hlt)
  have habove : key < first.1 := by
    have hgt := hseg.gt i (hlen ▸ hlt) (by omega)
    rwa [Simd.compareBytes_eq, cmp_eq_gt_iff, hhead] at hgt
  have hle : first.1 ≤ e.1 := by
    have hsorted := (List.pairwise_flatten.mp h.sorted).1 _ (List.getElem_mem hlt)
    rw [hblock] at he hsorted
    rcases List.mem_cons.mp he with rfl | he
    · exact le_rfl
    · exact (List.pairwise_cons.mp hsorted).1 e he
  exact (habove.trans_le hle).ne'

/-- A seek to a key leaves its entries from the last block on that has one. -/
theorem Sound.find?_entriesFrom (h : t.Sound) (key : Bytes) :
    ((t.entriesFrom key).find? fun e => decide (e.1 = key)) = lastCut key t.blocks := by
  rw [SSTable.entriesFrom, find?_dropWhile_lt _ le_rfl]
  by_cases hhas : t.Has key
  · obtain ⟨hlt, e, he, hkey⟩ := h.exists_mem_findBlock hhas
    have hsome : (t.blocks[t.findBlock key].find? fun e => decide (e.1 = key)).isSome := by
      rw [List.find?_isSome]
      exact ⟨e, he, decide_eq_true hkey⟩
    obtain ⟨found, hfound⟩ := Option.isSome_iff_exists.mp hsome
    have hlast : lastCut key t.blocks = some found := by
      refine findSome?_reverse (List.getElem?_eq_getElem hlt) hfound ?_
      intro j block hj hhere
      obtain ⟨hlt', rfl⟩ := List.getElem?_eq_some_iff.mp hj
      by_contra hafter
      refine hhere (List.find?_eq_none.mpr fun e he => ?_)
      simpa using h.ne_of_mem_after (not_le.mp hafter) hlt' he
    rw [hlast, List.drop_eq_getElem_cons hlt, List.flatten_cons, List.find?_append, hfound]
    rfl
  · have hnone : ∀ e ∈ t.entries, e.1 ≠ key := fun e he hkey => hhas ⟨e, he, hkey⟩
    have hrest : ((t.blocks.drop (t.findBlock key)).flatten.find? fun e =>
        decide (e.1 = key)) = none := by
      rw [List.find?_eq_none]
      intro e he
      obtain ⟨block, hblock, he⟩ := List.mem_flatten.mp he
      simpa using hnone e (List.mem_flatten_of_mem (List.mem_of_mem_drop hblock) he)
    have hlast : lastCut key t.blocks = none := lastCut_eq_none_iff.mpr hnone
    rw [hrest, hlast]

/-- A lookup answers with the first entry of the key in the last block that has one. -/
theorem Sound.get_eq_lastCut (h : t.Sound) (key : Bytes) :
    t.get key = (lastCut key t.blocks).bind Prod.snd := by
  rw [h.get_eq_entriesFrom, h.find?_entriesFrom]

end SSTable

namespace MemTable

/-- What a flush hands to the builder. -/
def flushedEntries (m : MemTable) : List Entry := m.iter.map fun e => (e.1.data, e.2)

theorem sound_flushedTable (sstId : ℕ) (m : MemTable) : (Lsm.flushedTable sstId m).Sound :=
  (SSTableBuilder.holds_build sstId m.len m.flushedEntries).sound (Lsm.flushed_sorted m)

theorem blocks_flushedTable (sstId : ℕ) (m : MemTable) :
    (Lsm.flushedTable sstId m).blocks = SSTableBuilder.blocksOf m.flushedEntries :=
  SSTableBuilder.blocks_build sstId m.len m.flushedEntries

/-- **A flushed table serves the newest version** of a key, a put, just when the first version of
the key in the last block that has one is a put of the same value.  The first part is about the
entries, the second about the file, whatever the block cache has. -/
theorem get_flushedTable_iff (sstId : ℕ) (m : MemTable) :
    (∀ key value, m.newest key = some (some value) →
      ((Lsm.flushedTable sstId m).get key = some value ↔
        ∃ e, lastCut key (SSTableBuilder.blocksOf m.flushedEntries) = some e ∧
          e.2 = some value)) ∧
    ∀ (codec : TableCodec) (compression : CompressionType), codec.Inverts →
      TableFile.Fits codec compression (Lsm.flushedTable sstId m) →
      ∃ t, TableFile.openFile sstId
          (TableFile.Builder.build codec sstId m.len compression m.flushedEntries) = .ok t ∧
        ∀ cache key, t.get codec cache key = .ok ((Lsm.flushedTable sstId m).get key) := by
  constructor
  · intro key value _
    rw [(sound_flushedTable sstId m).get_eq_lastCut, blocks_flushedTable, Option.bind_eq_some_iff]
  · intro codec compression hcodec hfits
    obtain ⟨t, hopen, hstores⟩ :=
      TableFile.openFile_build hcodec sstId m.len compression m.flushedEntries hfits
    have hholds := SSTableBuilder.holds_build sstId m.len m.flushedEntries
    exact ⟨t, hopen, fun cache key =>
      hstores.get_eq hholds (SSTableBuilder.bloom_build_pos sstId m.len m.flushedEntries) cache key⟩

/-- Two versions of one key in one block. -/
def fewVersions : MemTable := (new.put ⟨[1], 1⟩ [11]).put ⟨[1], 2⟩ [12]

theorem get_flushedTable_iff_fewVersions :
    ((Lsm.flushedTable 1 fewVersions).get [1] = some [12] ↔
      ∃ e, lastCut [1] (SSTableBuilder.blocksOf fewVersions.flushedEntries) = some e ∧
        e.2 = some [12]) ∧
    ∃ t, TableFile.openFile 1 (TableFile.Builder.build TableFile.literalCodec 1 2 .none
        fewVersions.flushedEntries) = .ok t ∧
      ∀ cache key, t.get TableFile.literalCodec cache key =
        .ok ((Lsm.flushedTable 1 fewVersions).get key) :=
  ⟨(get_flushedTable_iff 1 fewVersions).1 [1] [12] rfl,
    (get_flushedTable_iff 1 fewVersions).2 TableFile.literalCodec .none
      TableFile.inverts_literalCodec
      { entries := by decide
        blocks := by decide
        numBlocks := by decide
        bloom := by decide }⟩

/-- A value of 4096 bytes fills a block. -/
theorem cut_of_wide {wide : Bytes} (hwide : wide.length = 4096) :
    SSTableBuilder.cut [] [([1], some wide), ([1], some [11])] =
      ([[([1], some wide)]], [([1], some [11])]) := by
  simp [SSTableBuilder.cut, SSTableBuilder.blockSize, SSTableBuilder.blockLen,
    SSTableBuilder.encodedLen, hwide]

/-- A value that fills a block by itself. -/
def wideVersion : Bytes := List.replicate 4096 0

theorem length_wideVersion : wideVersion.length = 4096 := List.length_replicate

/-- The newest version fills a block, and the older one is in the next. -/
def overflowing : MemTable := (new.put ⟨[1], 1⟩ [11]).put ⟨[1], 2⟩ wideVersion

/-- The lookup answers with the older version. -/
theorem not_servesNewest_overflowing :
    (Lsm.flushedTable 1 overflowing).get [1] = some [11] ∧
      ¬∀ key value, overflowing.newest key = some (some value) →
        (Lsm.flushedTable 1 overflowing).get key = some value := by
  have hentries : overflowing.flushedEntries = [([1], some wideVersion), ([1], some [11])] := rfl
  have hlast : lastCut [1] (SSTableBuilder.blocksOf overflowing.flushedEntries) =
      some ([1], some [11]) := by
    rw [SSTableBuilder.blocksOf, hentries, cut_of_wide length_wideVersion]
    rfl
  have hget : (Lsm.flushedTable 1 overflowing).get [1] = some [11] := by
    rw [(sound_flushedTable 1 overflowing).get_eq_lastCut, blocks_flushedTable, hlast]
    rfl
  refine ⟨hget, ?_⟩
  intro hserves
  have hnewest := hserves [1] wideVersion rfl
  rw [hget] at hnewest
  have hsame : 1 = wideVersion.length := congrArg List.length (Option.some.inj hnewest)
  rw [length_wideVersion] at hsame
  omega

end MemTable
end Crabstash

import Mathlib.Order.Bounds.Basic
import Crabstash.Storage.BlockCuts
import Crabstash.Storage.CompactionOrder
import Crabstash.Storage.FlushedTables

/-!
# The key ranges of tables

The index of a table has a first and a last key for every block, and the table takes its own range
from the first and the last block.  Compaction leaves out tables of the next level whose range does
not meet that of the chosen table.

The first keys are right.  The last key is right for a block that `add` has flushed, but `finish`
gives the final block that of the block before it, or the empty key.  So the upper end of a table's
range is the last key of its last *full* block (`maxKey_build`), and what is recorded is exact just
when the last entry has that key.  Two tables with a common key are found to overlap just when
neither begins above the recorded end of the other (`keyRanges_iff`).
-/

namespace Crabstash

open SSTableBuilder

/-- These are the smallest and the largest of the keys. -/
def IsRange (entries : List Entry) (first last : Bytes) : Prop :=
  IsLeast {key | ∃ e ∈ entries, e.1 = key} first ∧
    IsGreatest {key | ∃ e ∈ entries, e.1 = key} last

/-- The ranges of an opened table and of its blocks are those of the entries. -/
structure ExactRanges (t : TableFile) (entries : List Entry) : Prop where
  blocks : List.Forall₂ (fun (block : List Entry) (m : TableFile.BlockMeta) =>
    IsRange block m.firstKey m.lastKey) (blocksOf entries) t.blockMetas
  table : IsRange entries t.minKey t.maxKey

/-- Neither list begins above the last key that is recorded for the other. -/
def Meet (es es' : List Entry) : Prop :=
  firstKeyOf es' ≤ recordedLastKey es ∧ firstKeyOf es ≤ recordedLastKey es'

/-- The table was written from entries in the order of their keys. -/
structure SSTable.Built (t : SSTable) : Prop where
  entries_ne_nil : t.entries ≠ []
  sorted : t.entries.Pairwise fun a b => a.1 ≤ b.1
  eq_build : ∃ estimatedKeys, t = build t.id estimatedKeys t.entries

/-- Of the tables of the next level the task has those that share a key with its first input. -/
def SelectsSharing (c : Compactor) (task : CompactionTask) : Prop :=
  ∀ inputId ∈ task.inputSsts.head?, ∀ chosen, c.dir.ssts inputId = some chosen →
    ∀ nextId ∈ c.manifest.levels (task.level + 1), ∀ next, c.dir.ssts nextId = some next →
      (∃ key, chosen.Has key ∧ next.Has key) → nextId ∈ task.inputSsts.tail

/-! ## Sorted entries -/

section Sorted

variable {es : List Entry}

theorem firstKeyOf_le (hsorted : es.Pairwise fun a b => a.1 ≤ b.1) {e : Entry} (he : e ∈ es) :
    firstKeyOf es ≤ e.1 := by
  cases es with
  | nil => exact absurd he List.not_mem_nil
  | cons first rest =>
      rcases List.mem_cons.mp he with rfl | he
      · exact le_rfl
      · exact (List.pairwise_cons.mp hsorted).1 e he

theorem le_lastKeyOf (hsorted : es.Pairwise fun a b => a.1 ≤ b.1) {e : Entry} (he : e ∈ es) :
    e.1 ≤ lastKeyOf es := by
  rcases List.eq_nil_or_concat' es with rfl | ⟨front, last, rfl⟩
  · exact absurd he List.not_mem_nil
  · have hlast : lastKeyOf (front ++ [last]) = last.1 := by simp [lastKeyOf]
    rw [hlast]
    rcases List.mem_append.mp he with he | he
    · exact (List.pairwise_append.mp hsorted).2.2 e he last (List.mem_singleton_self _)
    · rw [List.mem_singleton.mp he]

theorem exists_firstKeyOf (hne : es ≠ []) : ∃ e ∈ es, e.1 = firstKeyOf es := by
  obtain ⟨first, rest, rfl⟩ := List.exists_cons_of_ne_nil hne
  exact ⟨first, List.mem_cons_self .., rfl⟩

theorem exists_lastKeyOf (hne : es ≠ []) : ∃ e ∈ es, e.1 = lastKeyOf es := by
  refine ⟨es.getLast hne, List.getLast_mem hne, ?_⟩
  rw [lastKeyOf, List.getLast?_eq_some_getLast hne]
  rfl

theorem isRange_iff (hsorted : es.Pairwise fun a b => a.1 ≤ b.1) (hne : es ≠ [])
    {first last : Bytes} : IsRange es first last ↔ first = firstKeyOf es ∧ last = lastKeyOf es := by
  have hleast : IsLeast {key | ∃ e ∈ es, e.1 = key} (firstKeyOf es) := by
    refine ⟨exists_firstKeyOf hne, ?_⟩
    rintro key ⟨e, he, rfl⟩
    exact firstKeyOf_le hsorted he
  have hgreatest : IsGreatest {key | ∃ e ∈ es, e.1 = key} (lastKeyOf es) := by
    refine ⟨exists_lastKeyOf hne, ?_⟩
    rintro key ⟨e, he, rfl⟩
    exact le_lastKeyOf hsorted he
  constructor
  · rintro ⟨hfirst, hlast⟩
    exact ⟨hfirst.unique hleast, hlast.unique hgreatest⟩
  · rintro ⟨rfl, rfl⟩
    exact ⟨hleast, hgreatest⟩

theorem firstKeyOf_append {front : List Entry} (hne : front ≠ []) (rest : List Entry) :
    firstKeyOf (front ++ rest) = firstKeyOf front := by
  obtain ⟨first, tail, rfl⟩ := List.exists_cons_of_ne_nil hne
  rfl

theorem lastKeyOf_append (front : List Entry) {rest : List Entry} (hne : rest ≠ []) :
    lastKeyOf (front ++ rest) = lastKeyOf rest := by
  rw [lastKeyOf, List.getLast?_append_of_ne_nil _ hne, lastKeyOf]

end Sorted

/-! ## What is recorded -/

section Recorded

variable (id estimatedKeys : ℕ) {entries : List Entry}

theorem minKey_build (hne : entries ≠ []) :
    (build id estimatedKeys entries).minKey = firstKeyOf entries := by
  have hflatten := flatten_cut [] entries
  rw [SSTable.minKey, blockMetas_build]
  cases hfull : (cut [] entries).1 with
  | nil =>
      rw [hfull] at hflatten
      have hleft : (cut [] entries).2 = entries := hflatten
      simp [hleft, hne]
  | cons block blocks =>
      have hblock : block ≠ [] := ne_nil_of_mem_cut (hfull ▸ List.mem_cons_self ..)
      rw [hfull, List.flatten_cons, List.append_assoc, List.nil_append] at hflatten
      rw [← hflatten, firstKeyOf_append hblock]
      rfl

/-- The upper end of the range is the last key of the last full block. -/
theorem maxKey_build : (build id estimatedKeys entries).maxKey = recordedLastKey entries := by
  rw [SSTable.maxKey, blockMetas_build]
  split
  · rw [List.append_nil, List.getLast?_map, Option.map_map]
    rfl
  · rw [List.getLast?_append_of_ne_nil _ (List.cons_ne_nil _ _)]
    rfl

/-- If the blocks are all full, the last key that is recorded is that of the last entry. -/
theorem recordedLastKey_of_full (hne : entries ≠ []) (hleft : (cut [] entries).2 = []) :
    recordedLastKey entries = lastKeyOf entries := by
  have hflatten := flatten_cut [] entries
  rw [hleft, List.append_nil, List.nil_append] at hflatten
  rcases List.eq_nil_or_concat' (cut [] entries).1 with hfull | ⟨blocks, last, hfull⟩
  · rw [hfull] at hflatten
    exact absurd hflatten.symm hne
  · have hmem : last ∈ (cut [] entries).1 := by
      rw [hfull]
      exact List.mem_append_right _ (List.mem_singleton_self _)
    have hlast := ne_nil_of_mem_cut hmem
    rw [hfull, List.flatten_append, List.flatten_singleton] at hflatten
    rw [recordedLastKey, hfull, ← hflatten, lastKeyOf_append _ hlast]
    simp

end Recorded

section Exact

variable {codec : TableCodec} {t : TableFile} {id estimatedKeys : ℕ} {entries : List Entry}

/-- The recorded ranges of the blocks are exact if that of the last one is. -/
theorem forall₂_blockMetas (id estimatedKeys : ℕ)
    (hsorted : entries.Pairwise fun a b => a.1 ≤ b.1)
    (hlast : lastKeyOf entries = recordedLastKey entries) :
    List.Forall₂ (fun (block : List Entry) (m : BlockMeta) => IsRange block m.firstKey m.lastKey)
      (blocksOf entries) (build id estimatedKeys entries).blockMetas := by
  have hflatten := flatten_cut [] entries
  rw [List.nil_append] at hflatten
  rw [← hflatten] at hsorted
  obtain ⟨hfull, hleft, -⟩ := List.pairwise_append.mp hsorted
  rw [blocksOf, blockMetas_build]
  refine List.rel_append ?_ ?_
  · rw [List.forall₂_map_right_iff, List.forall₂_same]
    intro block hblock
    have hblockSorted := (List.pairwise_flatten.mp hfull).1 block hblock
    exact (isRange_iff hblockSorted (ne_nil_of_mem_cut hblock)).mpr ⟨rfl, rfl⟩
  · split
    · exact List.Forall₂.nil
    · next hne =>
        refine List.Forall₂.cons ((isRange_iff hleft hne).mpr ⟨rfl, ?_⟩) List.Forall₂.nil
        rw [← hlast, ← lastKeyOf_append _ hne, hflatten]

/-- What is read back from a file is exact just when the last entry has the key recorded last. -/
theorem exactRanges_iff (hstores : t.Stores codec (build id estimatedKeys entries))
    (hne : entries ≠ []) (hsorted : entries.Pairwise fun a b => a.1 ≤ b.1) :
    ExactRanges t entries ↔ lastKeyOf entries = recordedLastKey entries := by
  have htable : IsRange entries t.minKey t.maxKey ↔
      lastKeyOf entries = recordedLastKey entries := by
    rw [hstores.minKey, hstores.maxKey, minKey_build id estimatedKeys hne, maxKey_build,
      isRange_iff hsorted hne, and_iff_right rfl]
    exact eq_comm
  constructor
  · intro h
    exact htable.mp h.table
  · intro hlast
    have hmetas := forall₂_blockMetas id estimatedKeys hsorted hlast
    rw [← hstores.keys, List.forall₂_map_right_iff] at hmetas
    exact ⟨hmetas, htable.mpr hlast⟩

end Exact

/-! ## Overlaps -/

theorem rangesOverlap_iff {a b : SSTable} (ha : a.Built) (hb : b.Built) :
    Compactor.rangesOverlap a b = true ↔ Meet a.entries b.entries := by
  obtain ⟨n, hbuildA⟩ := ha.eq_build
  obtain ⟨m, hbuildB⟩ := hb.eq_build
  have hminA : a.minKey = firstKeyOf a.entries := by
    rw [hbuildA, minKey_build a.id n ha.entries_ne_nil, ← hbuildA]
  have hminB : b.minKey = firstKeyOf b.entries := by
    rw [hbuildB, minKey_build b.id m hb.entries_ne_nil, ← hbuildB]
  have hmaxA : a.maxKey = recordedLastKey a.entries := by
    rw [hbuildA, maxKey_build, ← hbuildA]
  have hmaxB : b.maxKey = recordedLastKey b.entries := by
    rw [hbuildB, maxKey_build, ← hbuildB]
  rw [Compactor.rangesOverlap, hminA, hminB, hmaxA, hmaxB, Meet]
  simp

/-- Of tables that share a key, and whose last entries have the keys recorded last, neither begins
above the end of the other. -/
theorem meet_of_exact {a b : SSTable} (ha : a.Built) (hb : b.Built)
    (hshare : ∃ key, a.Has key ∧ b.Has key)
    (hlastA : lastKeyOf a.entries = recordedLastKey a.entries)
    (hlastB : lastKeyOf b.entries = recordedLastKey b.entries) : Meet a.entries b.entries := by
  obtain ⟨key, ⟨e, he, hkey⟩, e', he', hkey'⟩ := hshare
  have hsame : e.1 = e'.1 := hkey.trans hkey'.symm
  constructor
  · calc firstKeyOf b.entries
        _ ≤ e'.1 := firstKeyOf_le hb.sorted he'
        _ = e.1 := hsame.symm
        _ ≤ lastKeyOf a.entries := le_lastKeyOf ha.sorted he
        _ = recordedLastKey a.entries := hlastA
  · calc firstKeyOf a.entries
        _ ≤ e.1 := firstKeyOf_le ha.sorted he
        _ = e'.1 := hsame
        _ ≤ lastKeyOf b.entries := le_lastKeyOf hb.sorted he'
        _ = recordedLastKey b.entries := hlastB

/-- A task of a level from 1 on leaves out a table that shares a key with its input just when the
recorded ranges do not meet. -/
theorem selectsSharing_iff {c : Compactor} {task : CompactionTask}
    (hbuilt : ∀ id sst, c.dir.ssts id = some sst → sst.Built)
    (hpick : c.pickCompaction = some task) (hlevel : 1 ≤ task.level) :
    SelectsSharing c task ↔
      ∀ inputId ∈ task.inputSsts.head?, ∀ chosen, c.dir.ssts inputId = some chosen →
        ∀ nextId ∈ c.manifest.levels (task.level + 1), ∀ next, c.dir.ssts nextId = some next →
          (∃ key, chosen.Has key ∧ next.Has key) → Meet chosen.entries next.entries := by
  obtain ⟨-, rfl⟩ | ⟨level, inputId, rest, -, -, rfl⟩ := Compactor.pickCompaction_cases hpick
  · exact absurd hlevel (show ¬1 ≤ 0 by decide)
  · unfold SelectsSharing
    refine forall₂_congr fun id hid => ?_
    obtain rfl : inputId = id := Option.some.inj hid
    refine forall₂_congr fun chosen hchosen => ?_
    refine forall₂_congr fun nextId hnextId => ?_
    refine forall₂_congr fun next hnext => forall_congr' fun _ => ?_
    have hmem : nextId ∈ c.overlapping inputId level ↔
        Compactor.rangesOverlap chosen next = true := by
      simp only [Compactor.overlapping, hchosen, List.mem_filter, hnext]
      exact and_iff_right hnextId
    rw [List.tail_cons, hmem, rangesOverlap_iff (hbuilt _ _ hchosen) (hbuilt _ _ hnext)]

theorem built_build (id estimatedKeys : ℕ) {entries : List Entry} (hne : entries ≠ [])
    (hsorted : entries.Pairwise fun a b => a.1 ≤ b.1) :
    (build id estimatedKeys entries).Built := by
  have hentries : (build id estimatedKeys entries).entries = entries :=
    (holds_build id estimatedKeys entries).flatten_blocks
  refine ⟨?_, ?_, estimatedKeys, ?_⟩
  · rw [hentries]
    exact hne
  · rw [hentries]
    exact hsorted
  · rw [hentries, id_build]

/-- **Key ranges are exact**, of the blocks and of the table, just when the last entry has the key
that is recorded last.  Tables that share a key are found to overlap, and a task selects those of
the next level, just when neither begins above the last key recorded for the other. -/
theorem keyRanges_iff {codec : TableCodec} (hcodec : codec.Inverts) (compression : CompressionType)
    (id estimatedKeys : ℕ) {entries : List Entry} (hne : entries ≠ [])
    (hsorted : entries.Pairwise fun a b => a.1 ≤ b.1)
    (hfits : TableFile.Fits codec compression (build id estimatedKeys entries)) :
    (∃ t, TableFile.openFile id
        (TableFile.Builder.build codec id estimatedKeys compression entries) = .ok t ∧
      (∀ i block, (blocksOf entries)[i]? = some block →
        t.readBlockFromDisk codec i = .ok (TableFile.encodeBlock block)) ∧
      t.minKey = (build id estimatedKeys entries).minKey ∧
      t.maxKey = (build id estimatedKeys entries).maxKey ∧
      (ExactRanges t entries ↔ lastKeyOf entries = recordedLastKey entries)) ∧
    (∀ other : SSTable, other.Built →
      (∃ key, (build id estimatedKeys entries).Has key ∧ other.Has key) →
      (Compactor.rangesOverlap (build id estimatedKeys entries) other = true ↔
        Meet entries other.entries)) ∧
    ∀ (c : Compactor) (task : CompactionTask),
      (∀ id sst, c.dir.ssts id = some sst → sst.Built) → c.pickCompaction = some task →
      1 ≤ task.level → (SelectsSharing c task ↔
        ∀ inputId ∈ task.inputSsts.head?, ∀ chosen, c.dir.ssts inputId = some chosen →
          ∀ nextId ∈ c.manifest.levels (task.level + 1), ∀ next, c.dir.ssts nextId = some next →
            (∃ key, chosen.Has key ∧ next.Has key) → Meet chosen.entries next.entries) := by
  refine ⟨?_, ?_, ?_⟩
  · obtain ⟨t, hopen, hstores⟩ :=
      -- the first part is about the file, read back by `open`
      TableFile.openFile_build hcodec id estimatedKeys compression entries hfits
    have hread := hstores.read
    rw [blocks_build] at hread
    exact ⟨t, hopen, hread, hstores.minKey, hstores.maxKey, exactRanges_iff hstores hne hsorted⟩
  · intro other hother _
    have hbuilt := built_build id estimatedKeys hne hsorted
    have hentries : (build id estimatedKeys entries).entries = entries :=
      (holds_build id estimatedKeys entries).flatten_blocks
    rw [rangesOverlap_iff hbuilt hother, hentries]
  · intro c task hbuilt hpick hlevel
    exact selectsSharing_iff hbuilt hpick hlevel

/-- Two entries that fill a block each. -/
def wideEntries : List Entry :=
  [([3], some MemTable.wideVersion), ([7], some MemTable.wideVersion)]

theorem cut_wideEntries : cut [] wideEntries =
    ([[([3], some MemTable.wideVersion)], [([7], some MemTable.wideVersion)]], []) := by
  simp [wideEntries, cut, blockSize, blockLen, encodedLen, MemTable.length_wideVersion]

theorem recordedLastKey_wideEntries : recordedLastKey wideEntries = [7] := by
  rw [recordedLastKey, cut_wideEntries]
  rfl

theorem fits_wideEntries :
    TableFile.Fits TableFile.literalCodec .none (build 1 2 wideEntries) where
  entries := by
    rw [SSTable.entries, (holds_build 1 2 wideEntries).flatten_blocks]
    decide +kernel
  blocks := by
    rw [blocks_build, blocksOf, cut_wideEntries]
    decide +kernel
  numBlocks := by
    rw [blocks_build, blocksOf, cut_wideEntries]
    decide
  bloom := by decide +kernel

/-- A table with one small entry. -/
def oneEntry : List Entry := [([7], some [1])]

theorem fits_oneEntry : TableFile.Fits TableFile.literalCodec .none (build 1 1 oneEntry) where
  entries := by decide
  blocks := by decide
  numBlocks := by decide
  bloom := by decide

/-- With full blocks only the ranges are exact, and another table of that kind is found to
overlap; the small one, which has one of the keys too, is not. -/
theorem keyRanges_iff_wideEntries :
    (∃ t, TableFile.openFile 1 (TableFile.Builder.build TableFile.literalCodec 1 2 .none
        wideEntries) = .ok t ∧ ExactRanges t wideEntries) ∧
      Compactor.rangesOverlap (build 1 2 wideEntries) (build 2 2 wideEntries) = true ∧
      ¬ Compactor.rangesOverlap (build 1 2 wideEntries) (build 2 1 oneEntry) = true := by
  have hentries : ∀ id n entries, (build id n entries).entries = entries := fun id n entries =>
    (holds_build id n entries).flatten_blocks
  obtain ⟨⟨t, hopen, _, _, _, hexact⟩, hoverlap, _⟩ := keyRanges_iff TableFile.inverts_literalCodec
    .none 1 2 (show wideEntries ≠ [] from List.cons_ne_nil _ _) (by decide) fits_wideEntries
  refine ⟨⟨t, hopen, hexact.mpr recordedLastKey_wideEntries.symm⟩, ?_, ?_⟩
  · have hbuilt : (build 2 2 wideEntries).Built :=
      built_build 2 2 (List.cons_ne_nil _ _) (by decide)
    refine (hoverlap _ hbuilt ⟨[7], ?_, ?_⟩).mpr ?_
    · rw [SSTable.Has, hentries]
      decide
    · rw [SSTable.Has, hentries]
      decide
    · rw [hentries, Meet, recordedLastKey_wideEntries]
      decide
  · have hbuilt : (build 2 1 oneEntry).Built := built_build 2 1 (List.cons_ne_nil _ _) (by decide)
    rw [hoverlap _ hbuilt ⟨[7], ?_, ?_⟩, hentries, Meet, recordedLastKey_wideEntries]
    · decide
    · rw [SSTable.Has, hentries]
      decide
    · rw [SSTable.Has, hentries]
      decide

/-- Its range ends with the empty key, and another table with the same key does not overlap it. -/
theorem not_keyRanges_oneEntry :
    (∃ t, TableFile.openFile 1 (TableFile.Builder.build TableFile.literalCodec 1 1 .none
        oneEntry) = .ok t ∧ t.maxKey = [] ∧ ¬ExactRanges t oneEntry) ∧
      ((build 1 1 oneEntry).Has [7] ∧ (build 2 1 oneEntry).Has [7] ∧
        Compactor.rangesOverlap (build 1 1 oneEntry) (build 2 1 oneEntry) = false) := by
  constructor
  · obtain ⟨t, hopen, hstores⟩ := TableFile.openFile_build TableFile.inverts_literalCodec 1 1 .none
      oneEntry fits_oneEntry
    refine ⟨t, hopen, ?_, ?_⟩
    · rw [hstores.maxKey, maxKey_build]
      rfl
    · rw [exactRanges_iff hstores (by decide) (by decide)]
      decide
  · exact ⟨by decide, by decide, by decide⟩

end Crabstash

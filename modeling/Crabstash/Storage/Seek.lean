import Mathlib.Data.List.TakeWhile
import Crabstash.Storage.Iterator

/-!
# Seeking

`SSTableIterator::seek` goes to the block that a lookup of the target would search, and then
over the entries below the target one by one.

That block is the *last* that begins at or below the target, so of a key that a block boundary
has cut in two the iterator sees the later part only.  `entriesFrom` is what is left of a table
in general (`yields_seek`), and for a key that is in one block these are the entries from the
target on (`entriesFrom_eq_filter`).  A lookup sees the same part of its key
(`get_eq_entriesFrom`).

`MemTableIterator::seek` takes the position that a binary search reports, and of several versions
of the target that is the last one, the oldest (`MemTable.itemsFrom`).
-/

namespace Crabstash

open StorageIterator

/-- What a table has from the target on, for an iterator that seeks it. -/
def SSTable.entriesFrom (t : SSTable) (target : Bytes) : List Entry :=
  (t.blocks.drop (t.findBlock target)).flatten.dropWhile fun e => decide (e.1 < target)

namespace SSTable

variable {t : SSTable} {es : List Entry} {target : Bytes}

theorem Holds.findBlock_lt (h : t.Holds es) (hsorted : es.Pairwise fun a b => a.1 ≤ b.1)
    (hne : t.blocks ≠ []) : t.findBlock target < t.blocks.length := by
  obtain ⟨c, hseg⟩ := h.exists_segment hsorted target
  have hfind : t.findBlock target = c - 1 := BinarySearch.floor_binarySearchBy hseg
  have hc := hseg.le_length
  rw [h.length_blockMetas] at hc
  have hpos := List.length_pos_iff.mpr hne
  omega

/-- Blocks before the one that is searched do not go beyond the target. -/
theorem Holds.le_of_mem_before (h : t.Holds es) (hsorted : es.Pairwise fun a b => a.1 ≤ b.1)
    {i : ℕ} (hi : i < t.findBlock target) {block : List Entry} (hblock : t.blocks[i]? = some block)
    {e : Entry} (he : e ∈ block) : e.1 ≤ target := by
  obtain ⟨hlt, rfl⟩ := List.getElem?_eq_some_iff.mp hblock
  have hfound : t.findBlock target < t.blocks.length :=
    h.findBlock_lt hsorted (List.ne_nil_of_length_pos (by omega))
  obtain ⟨c, hseg⟩ := h.exists_segment hsorted target
  have hfind : t.findBlock target = c - 1 := BinarySearch.floor_binarySearchBy hseg
  have hmetas : t.findBlock target < t.blockMetas.length := by
    rw [h.length_blockMetas]
    exact hfound
  obtain ⟨first, rest, hfirst, hkey⟩ := h.exists_head hfound hmetas
  have hmem : first ∈ t.blocks[t.findBlock target] := by
    rw [hfirst]
    exact List.mem_cons_self ..
  have hle : first.1 ≤ target := by
    have hngt := hseg.ne_gt (t.findBlock target) hmetas (by omega)
    rw [Simd.compareBytes_eq, ne_eq, cmp_eq_gt_iff, hkey] at hngt
    exact not_lt.mp hngt
  have hbefore : e.1 ≤ first.1 := h.key_le hsorted hi hfound he hmem
  exact hbefore.trans hle

/-- For a target that is in one block they end below it. -/
theorem Holds.lt_of_mem_before (h : t.Holds es) (hsorted : es.Pairwise fun a b => a.1 ≤ b.1)
    (hunsplit : t.Unsplit target) {i : ℕ} (hi : i < t.findBlock target) {block : List Entry}
    (hblock : t.blocks[i]? = some block) {e : Entry} (he : e ∈ block) : e.1 < target := by
  refine lt_of_le_of_ne (h.le_of_mem_before hsorted hi hblock he) ?_
  intro heq
  obtain ⟨hlt, rfl⟩ := List.getElem?_eq_some_iff.mp hblock
  exact absurd (h.findBlock_spec hsorted hunsplit hlt he heq) hi.ne'

/-- On sorted entries, dropping those below a key leaves those from it on. -/
theorem dropWhile_lt_eq_filter (hsorted : es.Pairwise fun a b => a.1 ≤ b.1) :
    (es.dropWhile fun e => decide (e.1 < target)) = es.filter fun e => decide (target ≤ e.1) := by
  induction es with
  | nil => rfl
  | cons first rest ih =>
      obtain ⟨hfirst, hrest⟩ := List.pairwise_cons.mp hsorted
      by_cases hlt : first.1 < target
      · rw [List.dropWhile_cons_of_pos (by simpa using hlt), ih hrest,
          List.filter_cons_of_neg (by simpa using hlt)]
      · have hge : target ≤ first.1 := not_lt.mp hlt
        rw [List.dropWhile_cons_of_neg (by simpa using hge), Eq.comm, List.filter_eq_self]
        intro e he
        rcases List.mem_cons.mp he with rfl | he
        · exact decide_eq_true hge
        · exact decide_eq_true (hge.trans (hfirst e he))

/-- Entries below a target are passed over by a search for a key from it on. -/
theorem find?_dropWhile_lt (es : List Entry) {target key : Bytes} (hle : target ≤ key) :
    ((es.dropWhile fun e => decide (e.1 < target)).find? fun e => decide (e.1 = key)) =
      es.find? fun e => decide (e.1 = key) := by
  induction es with
  | nil => rfl
  | cons first rest ih =>
      by_cases hlt : first.1 < target
      · have hne : first.1 ≠ key := (hlt.trans_le hle).ne
        rw [List.dropWhile_cons_of_pos (by simpa using hlt), ih,
          List.find?_cons_of_neg (by simpa using hne)]
      · rw [List.dropWhile_cons_of_neg (by simpa using hlt)]

/-- For a target that is in one block, seeking leaves out the entries below it. -/
theorem Holds.entriesFrom_eq_filter (h : t.Holds es)
    (hsorted : es.Pairwise fun a b => a.1 ≤ b.1) (hunsplit : t.Unsplit target) :
    t.entriesFrom target = es.filter fun e => decide (target ≤ e.1) := by
  have hsplit : es = (t.blocks.take (t.findBlock target)).flatten ++
      (t.blocks.drop (t.findBlock target)).flatten := by
    rw [← List.flatten_append, List.take_append_drop, h.flatten_blocks]
  have hbefore : (t.blocks.take (t.findBlock target)).flatten.filter
      (fun e => decide (target ≤ e.1)) = [] := by
    rw [List.filter_eq_nil_iff]
    intro e he
    obtain ⟨block, hblock, he⟩ := List.mem_flatten.mp he
    obtain ⟨i, hi, hget⟩ := List.mem_take_iff_getElem.mp hblock
    have hlt := h.lt_of_mem_before hsorted hunsplit (i := i) (by omega)
      (List.getElem?_eq_some_iff.mpr ⟨by omega, hget⟩) he
    simpa using hlt
  have hafter : ((t.blocks.drop (t.findBlock target)).flatten).Pairwise
      fun a b => a.1 ≤ b.1 := by
    rw [hsplit] at hsorted
    exact (List.pairwise_append.mp hsorted).2.1
  conv_rhs => rw [hsplit, List.filter_append, hbefore, List.nil_append]
  exact dropWhile_lt_eq_filter hafter

theorem sorted_drop (hsorted : t.entries.Pairwise fun a b => a.1 ≤ b.1) (n : ℕ) :
    (t.blocks.drop n).flatten.Pairwise fun a b => a.1 ≤ b.1 := by
  have hsplit : t.entries = (t.blocks.take n).flatten ++ (t.blocks.drop n).flatten := by
    rw [← List.flatten_append, List.take_append_drop, entries]
  rw [hsplit] at hsorted
  exact (List.pairwise_append.mp hsorted).2.1

/-- What a seek leaves is in order and not below the target. -/
theorem Sound.entriesFrom (h : t.Sound) (target : Bytes) :
    (t.entriesFrom target).Pairwise (fun a b => a.1 ≤ b.1) ∧
      ∀ e ∈ t.entriesFrom target, e ∈ t.entries ∧ target ≤ e.1 := by
  have hdrop := sorted_drop h.sorted (t.findBlock target)
  rw [SSTable.entriesFrom, dropWhile_lt_eq_filter hdrop]
  refine ⟨hdrop.filter _, ?_⟩
  intro e he
  obtain ⟨he, hle⟩ := List.mem_filter.mp he
  obtain ⟨block, hblock, he⟩ := List.mem_flatten.mp he
  exact ⟨List.mem_flatten_of_mem (List.mem_of_mem_drop hblock) he, of_decide_eq_true hle⟩

/-- Keys beyond the target are not concerned by a seek. -/
theorem Sound.find?_entriesFrom_of_lt (h : t.Sound) {key : Bytes} (hlt : target < key) :
    ((t.entriesFrom target).find? fun e => decide (e.1 = key)) =
      t.entries.find? fun e => decide (e.1 = key) := by
  have hsplit : t.entries = (t.blocks.take (t.findBlock target)).flatten ++
      (t.blocks.drop (t.findBlock target)).flatten := by
    rw [← List.flatten_append, List.take_append_drop, entries]
  have hbefore : ((t.blocks.take (t.findBlock target)).flatten.find? fun e =>
      decide (e.1 = key)) = none := by
    rw [List.find?_eq_none]
    intro e he
    obtain ⟨block, hblock, he⟩ := List.mem_flatten.mp he
    obtain ⟨i, hi, hget⟩ := List.mem_take_iff_getElem.mp hblock
    have hle : e.1 ≤ target := h.holds.le_of_mem_before h.sorted (i := i) (by omega)
      (List.getElem?_eq_some_iff.mpr ⟨by omega, hget⟩) he
    simpa using (hle.trans_lt hlt).ne
  rw [SSTable.entriesFrom, find?_dropWhile_lt _ hlt.le, hsplit, List.find?_append, hbefore,
    Option.none_or]

/-- If the table has the key, the block that is searched has it. -/
theorem Sound.exists_mem_findBlock (h : t.Sound) {key : Bytes} (hhas : t.Has key) :
    ∃ hlt : t.findBlock key < t.blocks.length, ∃ e ∈ t.blocks[t.findBlock key], e.1 = key := by
  obtain ⟨e, he, hkey⟩ := hhas
  have hholds := h.holds
  obtain ⟨block, hblock, hmem⟩ := List.mem_flatten.mp he
  obtain ⟨i, hi, rfl⟩ := List.getElem_of_mem hblock
  have hlt : t.findBlock key < t.blocks.length :=
    hholds.findBlock_lt h.sorted (List.ne_nil_of_length_pos (by omega))
  refine ⟨hlt, ?_⟩
  by_cases hsame : t.findBlock key = i
  · subst hsame
    exact ⟨e, hmem, hkey⟩
  obtain ⟨c, hseg⟩ := hholds.exists_segment h.sorted key
  have hlen := hholds.length_blockMetas
  have hfind : t.findBlock key = c - 1 := BinarySearch.floor_binarySearchBy hseg
  -- the block of the entry begins at or below the key, so it is not after the one found
  obtain ⟨first, rest, hfirst, hhead⟩ := hholds.exists_head hi (hlen ▸ hi)
  have hle : first.1 ≤ key := by
    have hblockSorted := (List.pairwise_flatten.mp h.sorted).1 _ (List.getElem_mem hi)
    rw [hfirst] at hmem hblockSorted
    rcases List.mem_cons.mp hmem with rfl | hmem
    · exact hkey.le
    · exact ((List.pairwise_cons.mp hblockSorted).1 e hmem).trans hkey.le
  have hic : i < c := by
    by_contra hge
    have hgt := hseg.gt i (hlen ▸ hi) (not_lt.mp hge)
    rw [Simd.compareBytes_eq, cmp_eq_gt_iff, hhead] at hgt
    exact absurd hle hgt.not_ge
  -- and if it is before it, the one found begins with the key
  obtain ⟨first', rest', hfirst', hhead'⟩ := hholds.exists_head hlt (hlen ▸ hlt)
  have hmem' : first' ∈ t.blocks[t.findBlock key] := by
    rw [hfirst']
    exact List.mem_cons_self ..
  refine ⟨first', hmem', le_antisymm ?_ ?_⟩
  · have hngt := hseg.ne_gt (t.findBlock key) (hlen ▸ hlt) (by omega)
    rw [Simd.compareBytes_eq, ne_eq, cmp_eq_gt_iff, hhead'] at hngt
    exact not_lt.mp hngt
  · rw [← hkey]
    exact hholds.key_le h.sorted (by omega) hlt hmem hmem'

/-- A lookup finds the first entry of the key that an iterator sought to it comes upon. -/
theorem Sound.get_eq_entriesFrom (h : t.Sound) (key : Bytes) :
    t.get key = ((t.entriesFrom key).find? fun e => decide (e.1 = key)).bind Prod.snd := by
  by_cases hhas : t.Has key
  · obtain ⟨hlt, e, he, hkey⟩ := h.exists_mem_findBlock hhas
    have hmay : t.bloom.mayContain key = true := by
      obtain ⟨e', he', hkey'⟩ := hhas
      rw [← hkey']
      exact h.holds.mayContain e' he'
    have hroom : ¬ t.blockMetas.length ≤ t.findBlock key := by
      rw [h.holds.length_blockMetas]
      omega
    have hread : t.readBlock (t.findBlock key) = t.blocks[t.findBlock key] := by
      simp [readBlock, hlt]
    have hget : t.get key = searchBlock key t.blocks[t.findBlock key] := by
      simp [get, hmay, hread, hroom]
    have hsome : (t.blocks[t.findBlock key].find? fun e => decide (e.1 = key)).isSome := by
      rw [List.find?_isSome]
      exact ⟨e, he, decide_eq_true hkey⟩
    rw [hget, searchBlock_eq, SSTable.entriesFrom, find?_dropWhile_lt _ le_rfl,
      List.drop_eq_getElem_cons hlt, List.flatten_cons, List.find?_append,
      Option.or_of_isSome hsome]
  · have hnone : ∀ e ∈ t.entries, e.1 ≠ key := fun e he hkey => hhas ⟨e, he, hkey⟩
    have hfind : ((t.entriesFrom key).find? fun e => decide (e.1 = key)) = none := by
      rw [List.find?_eq_none]
      intro e he
      simpa using hnone e ((h.entriesFrom key).2 e he).1
    rw [h.holds.get_eq_none hnone, hfind]
    rfl

end SSTable

namespace SSTableIterator

variable {it : SSTableIterator}

theorem blockData_new {t : SSTable} {es : List Entry} (hholds : t.Holds es)
    (hblocks : t.blocks = []) : (new t).blockData = [] := by
  have hmetas : t.blockMetas.length = 0 := by
    rw [hholds.length_blockMetas, hblocks, List.length_nil]
  simp [new, loadBlock, parseEntry, hmetas]

theorem yields_skipBelow (target : Bytes) {items : List Item} (h : Yields it items) {fuel : ℕ}
    (hfuel : items.length ≤ fuel) :
    Yields (skipBelow target fuel it) (items.dropWhile fun item =>
      decide (item.1.data < target)) := by
  induction fuel generalizing it items with
  | zero =>
      obtain rfl : items = [] := List.eq_nil_of_length_eq_zero (by omega)
      exact h
  | succ fuel ih =>
      cases h with
      | done hvalid =>
          have hvalid : it.valid = false := hvalid
          simp only [skipBelow, hvalid, Bool.false_eq_true, false_and, if_false]
          exact Yields.done hvalid
      | @step _ it' item rest hvalid hitem hremaining hnext hrest =>
          have hkey : it.currentKey = item.1 := congrArg Prod.fst hitem
          have hit' : it.parseEntry = it' := congrArg Prod.snd hnext
          have hvalid' : it.valid = true := hvalid
          by_cases hlt : item.1.data < target
          · rw [List.dropWhile_cons_of_pos (by simpa using hlt)]
            simp only [skipBelow, hvalid', hkey, hlt, and_self, if_true, hit']
            exact ih hrest (by simpa using hfuel)
          · rw [List.dropWhile_cons_of_neg (by simpa using hlt)]
            simp only [skipBelow, hkey, hlt, and_false, if_false]
            exact Yields.step hvalid hitem hremaining hnext hrest

/-- From the start of a block on. -/
theorem yields_loadBlock (it : SSTableIterator) {es : List Entry}
    (hholds : it.table.Holds es) {idx : ℕ} (hidx : idx < it.table.blocks.length) :
    Yields (it.loadBlock idx).parseEntry ((it.table.blocks.drop idx).flatten.map itemOf) := by
  have hin : ¬ it.table.blockMetas.length ≤ idx := by
    rw [hholds.length_blockMetas]
    omega
  have hload : it.loadBlock idx =
      { it with blockData := it.table.blocks[idx], blockIdx := idx } := by
    rw [loadBlock, if_neg hin]
    simp [SSTable.readBlock, hidx]
  have hyields := yields_parseEntry _ (it.loadBlock idx) (by rw [hload]; exact hholds) rfl
  rw [hload] at hyields ⊢
  rw [List.drop_eq_getElem_cons hidx, List.flatten_cons]
  exact hyields

/-- Where a seek lands before it skips the entries below the target. -/
def landing (it : SSTableIterator) (target : Bytes) : SSTableIterator :=
  (({ it with blockIdx := it.table.findBlock target } : SSTableIterator).loadBlock
    (it.table.findBlock target)).parseEntry

theorem seek_eq (it : SSTableIterator) (target : Bytes) :
    it.seek target = skipBelow target (remaining (it.landing target)) (it.landing target) := by
  have hcmp : (fun block : BlockMeta => cmp block.firstKey target) =
      fun block => Simd.compareBytes block.firstKey target := by
    funext block
    rw [Simd.compareBytes_eq]
  unfold seek
  rw [hcmp]
  rfl

theorem yields_landing {es : List Entry} (hholds : it.table.Holds es)
    (hsorted : es.Pairwise fun a b => a.1 ≤ b.1)
    (hempty : it.table.blocks = [] → it.blockData = []) (target : Bytes) :
    Yields (it.landing target)
      ((it.table.blocks.drop (it.table.findBlock target)).flatten.map itemOf) := by
  by_cases hblocks : it.table.blocks = []
  · have hmetas : it.table.blockMetas.length = 0 := by
      rw [hholds.length_blockMetas, hblocks, List.length_nil]
    rw [hblocks, List.drop_nil]
    refine Yields.done ?_
    simp [landing, loadBlock, parseEntry, hmetas, hempty hblocks, isValid]
  · exact yields_loadBlock { it with blockIdx := it.table.findBlock target } hholds
      (hholds.findBlock_lt hsorted hblocks)

/-- After the skipping the iterator goes through the entries from the target on. -/
theorem yields_skipBelow_landing {es : List Entry} (hholds : it.table.Holds es)
    (hsorted : es.Pairwise fun a b => a.1 ≤ b.1)
    (hempty : it.table.blocks = [] → it.blockData = []) (target : Bytes) {fuel : ℕ}
    (hfuel : (it.table.blocks.drop (it.table.findBlock target)).flatten.length ≤ fuel) :
    Yields (skipBelow target fuel (it.landing target))
      ((it.table.entriesFrom target).map itemOf) := by
  have hlanding := yields_landing hholds hsorted hempty target
  have hskip := yields_skipBelow target hlanding ((List.length_map itemOf).trans_le hfuel)
  rw [List.dropWhile_map] at hskip
  exact hskip

/-- After a seek the iterator goes through the entries from the target on. -/
theorem yields_seek {es : List Entry} (hholds : it.table.Holds es)
    (hsorted : es.Pairwise fun a b => a.1 ≤ b.1)
    (hempty : it.table.blocks = [] → it.blockData = []) (target : Bytes) :
    Yields (it.seek target) ((it.table.entriesFrom target).map itemOf) := by
  have hlength := (yields_landing hholds hsorted hempty target).length_le
  rw [List.length_map] at hlength
  rw [seek_eq]
  exact yields_skipBelow_landing hholds hsorted hempty target hlength

end SSTableIterator

/-! ## Memtables -/

/-- What a memtable has from the target on, for an iterator that seeks it: of the target itself
the oldest version only. -/
def MemTable.itemsFrom (m : MemTable) (target : Bytes) : List Item :=
  m.iter.filter fun e => decide (target < e.1.data ∨ e.1.data = target ∧
    ∀ e' ∈ m.iter, e'.1.data = target → e.1.timestamp ≤ e'.1.timestamp)

namespace MemTableIterator

/-- A filter that lets through what comes from a position on. -/
theorem filter_eq_drop {items : List Item} {p : Item → Bool} {n : ℕ}
    (hbefore : ∀ i (h : i < items.length), i < n → p items[i] = false)
    (hfrom : ∀ i (h : i < items.length), n ≤ i → p items[i] = true) :
    items.filter p = items.drop n := by
  conv_lhs => rw [← List.take_append_drop n items]
  have htake : (items.take n).filter p = [] := by
    rw [List.filter_eq_nil_iff]
    intro e he
    obtain ⟨i, hi, rfl⟩ := List.mem_take_iff_getElem.mp he
    simp [hbefore i (by omega) (by omega)]
  have hdrop : (items.drop n).filter p = items.drop n := by
    rw [List.filter_eq_self]
    intro e he
    obtain ⟨i, hi, rfl⟩ := List.mem_drop_iff_getElem.mp he
    exact hfrom (n + i) (by omega) (by omega)
  rw [List.filter_append, htake, hdrop, List.nil_append]

section

variable {m : MemTable} {target : Bytes}

theorem exists_segment (m : MemTable) (target : Bytes) :
    ∃ c, BinarySearch.Segment m.iter (fun e => cmp e.1.data target) c := by
  apply BinarySearch.exists_segment
  refine List.Pairwise.imp (fun {a b} hlt hgt => ?_) m.map.sorted
  rw [cmp_eq_gt_iff] at hgt ⊢
  exact hgt.trans_le (Key.data_le_of_le hlt.le)

theorem data_le_of_lt {c : ℕ} (hseg : BinarySearch.Segment m.iter (fun e => cmp e.1.data target) c)
    {i : ℕ} (h : i < m.iter.length) (hi : i < c) : m.iter[i].1.data ≤ target := by
  have hngt := hseg.ne_gt i h hi
  rw [ne_eq, cmp_eq_gt_iff] at hngt
  exact not_lt.mp hngt

theorem lt_data_of_le {c : ℕ} (hseg : BinarySearch.Segment m.iter (fun e => cmp e.1.data target) c)
    {i : ℕ} (h : i < m.iter.length) (hi : c ≤ i) : target < m.iter[i].1.data := by
  have hgt := hseg.gt i h hi
  rwa [cmp_eq_gt_iff] at hgt

theorem data_le_of_index {i j : ℕ} (hi : i < m.iter.length) (hj : j < m.iter.length)
    (hij : i < j) : m.iter[i].1.data ≤ m.iter[j].1.data :=
  Key.data_le_of_le (List.pairwise_iff_getElem.mp m.map.sorted i j hi hj hij).le

/-- Of the versions of a key, the later is the older. -/
theorem timestamp_lt_of_index {i j : ℕ} (hi : i < m.iter.length) (hj : j < m.iter.length)
    (hij : i < j) (hsame : m.iter[i].1.data = m.iter[j].1.data) :
    m.iter[j].1.timestamp < m.iter[i].1.timestamp := by
  have hkey := List.pairwise_iff_getElem.mp m.map.sorted i j hi hj hij
  rcases Key.lt_iff.mp hkey with hless | ⟨_, hnewer⟩
  · exact absurd hless (hsame ▸ lt_irrefl _)
  · exact hnewer

/-- The last version of the target is the one before the end of the segment. -/
theorem itemsFrom_of_found {n : ℕ}
    (hseg : BinarySearch.Segment m.iter (fun e => cmp e.1.data target) (n + 1))
    (hlt : n < m.iter.length) (hdata : m.iter[n].1.data = target) :
    m.itemsFrom target = m.iter.drop n := by
  apply filter_eq_drop
  · intro i h hi
    rw [decide_eq_false_iff_not, not_or]
    refine ⟨(data_le_of_lt hseg h (by omega)).not_gt, ?_⟩
    rintro ⟨hsame, holdest⟩
    have hts := holdest _ (List.getElem_mem hlt) hdata
    have holder := timestamp_lt_of_index h hlt hi (hsame.trans hdata.symm)
    omega
  · intro i h hi
    rw [decide_eq_true_iff]
    rcases Nat.eq_or_lt_of_le hi with rfl | hi
    · refine Or.inr ⟨hdata, ?_⟩
      intro e' he' hsame
      obtain ⟨j, hj, rfl⟩ := List.getElem_of_mem he'
      rcases Nat.lt_trichotomy j n with hjn | rfl | hnj
      · exact (timestamp_lt_of_index hj hlt hjn (hsame.trans hdata.symm)).le
      · exact le_rfl
      · exact absurd hsame (lt_data_of_le hseg hj (by omega)).ne'
    · exact Or.inl (lt_data_of_le hseg h (by omega))

/-- Without the target among the keys, the items from it on begin after the segment. -/
theorem itemsFrom_of_missing {c : ℕ}
    (hseg : BinarySearch.Segment m.iter (fun e => cmp e.1.data target) c)
    (hmissing : ∀ h : c - 1 < m.iter.length, m.iter[c - 1].1.data ≠ target) :
    m.itemsFrom target = m.iter.drop c := by
  apply filter_eq_drop
  · intro i h hi
    rw [decide_eq_false_iff_not, not_or]
    refine ⟨(data_le_of_lt hseg h hi).not_gt, ?_⟩
    rintro ⟨hsame, _⟩
    -- then the last of the segment would be the target as well
    have hlast : c - 1 < m.iter.length := by
      have := hseg.le_length
      omega
    refine hmissing hlast (le_antisymm (data_le_of_lt hseg hlast (by omega)) ?_)
    rw [← hsame]
    rcases Nat.eq_or_lt_of_le (show i ≤ c - 1 by omega) with heq | hlt
    · simp only [heq, le_refl]
    · exact data_le_of_index h hlast hlt
  · intro i h hi
    rw [decide_eq_true_iff]
    exact Or.inl (lt_data_of_le hseg h hi)

end

/-- After a seek the iterator goes through the items from the target on. -/
theorem yields_seek (m : MemTable) (target : Bytes) :
    Yields ((new m).seek target) (m.itemsFrom target) := by
  obtain ⟨c, hseg⟩ := exists_segment m target
  by_cases hfound : ∃ h : c - 1 < m.iter.length, m.iter[c - 1].1.data = target
  · obtain ⟨hlt, hdata⟩ := hfound
    obtain ⟨n, rfl⟩ : ∃ n, c = n + 1 := by
      refine ⟨c - 1, ?_⟩
      by_contra hzero
      exact (lt_data_of_le hseg hlt (by omega)).ne' hdata
    simp only [Nat.add_sub_cancel] at hlt hdata
    have hseek : (new m).seek target = ⟨m.iter, n⟩ := by
      have heq : cmp m.iter[n].1.data target = .eq := by rw [hdata, cmp_self_eq_eq]
      have hsearch := BinarySearch.binarySearchBy_eq_ok hseg hlt heq
      unfold seek new
      rw [hsearch]
    rw [hseek, itemsFrom_of_found hseg hlt hdata]
    exact yields m.iter n
  · have hmissing : ∀ h : c - 1 < m.iter.length, m.iter[c - 1].1.data ≠ target :=
      fun h hdata => hfound ⟨h, hdata⟩
    have hseek : (new m).seek target = ⟨m.iter, c⟩ := by
      have hsearch := BinarySearch.binarySearchBy_eq_error hseg fun h heq =>
        hmissing h ((cmp_eq_eq_iff _ _).mp heq)
      unfold seek new
      rw [hsearch]
    rw [hseek, itemsFrom_of_missing hseg hmissing]
    exact yields m.iter c

end MemTableIterator
end Crabstash

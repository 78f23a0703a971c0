import Crabstash.Storage.Seek
import Crabstash.Storage.TableFile
import Crabstash.Storage.WalHistory

/-!
# Reading a table file

`SSTable::get` and `SSTableIterator` on the bytes of a file, through the block cache.

Both are followed alongside the lookup and the iterator of `SSTable.lean` and `Iterator.lean`,
which work on entries.  For a lookup that is one step.  The iterator keeps a block and an offset
into it, and `Mirrors` says that what lies behind the offset are the bytes of the entries that the
other iterator still has of its block.

A table built from entries whose keys increase has no key in two blocks, so the lookup finds every
entry and a seek misses none (`read_build`).
-/

namespace Crabstash

open LittleEndian StorageIterator

/-- What the block cache has of a table: some of the blocks that were read from the file.  Which
ones is for the cache to decide, so reading is described for every content. -/
structure BlockCache (codec : TableCodec) (t : TableFile) where
  held : ℕ → Option Bytes
  read : ∀ idx block, held idx = some block → t.readBlockFromDisk codec idx = .ok block

/-- Nothing is cached. -/
def BlockCache.empty (codec : TableCodec) (t : TableFile) : BlockCache codec t where
  held := fun _ => none
  read := fun _ _ hheld => Option.noConfusion rfl (heq_of_eq hheld)

namespace TableFile

section Model

variable (codec : TableCodec) (t : TableFile) (cache : BlockCache codec t)

/-- `read_block`: from the cache, or else from the file. -/
def readBlock (idx : ℕ) : Except TableFailure Bytes :=
  match cache.held idx with
  | some block => .ok block
  | none => t.readBlockFromDisk codec idx

/-- `read_block_cached`, which opens the file anew. -/
def readBlockCached (idx : ℕ) : Except TableFailure Bytes := t.readBlock codec cache idx

/-- `find_block`, on the index as it was read from the file. -/
def findBlock (key : Bytes) : ℕ :=
  match BinarySearch.binarySearchBy t.blockMetas fun m => Simd.compareBytes m.firstKey key with
  | .ok idx => idx
  | .error idx => idx - 1

/-- `SSTable::get`.  A bloom filter that has probes but no bits takes a remainder by zero. -/
def get (key : Bytes) : Except TableFailure (Option Bytes) :=
  if t.bloom.bits.isEmpty ∧ 0 < t.bloom.numHashes then .error .panic
  else if !t.bloom.mayContain key then .ok none
  else
    let blockIdx := t.findBlock key
    if t.blockMetas.length ≤ blockIdx then .ok none
    else
      match t.readBlock codec cache blockIdx with
      | .error e => .error e
      | .ok block =>
          match searchBlock block key with
          | none => .error .panic
          | some value => .ok value

/-- `SSTableIterator`; the table is a parameter. -/
structure Iter where
  blockIdx : ℕ
  blockData : Bytes
  blockOffset : ℕ
  currentKey : Key
  currentValue : Option Bytes
  valid : Bool
  deriving DecidableEq

namespace Iter

/-- `load_block`; behind the last block the iterator ends. -/
def loadBlock (it : Iter) (idx : ℕ) : Except TableFailure Iter :=
  if t.blockMetas.length ≤ idx then .ok { it with valid := false }
  else
    match t.readBlockCached codec cache idx with
    | .error e => .error e
    | .ok block => .ok { it with blockData := block, blockOffset := 0, blockIdx := idx }

/-- The end of `parse_entry`: the entry behind the offset. -/
def takeEntry (it : Iter) : Except TableFailure Iter :=
  if it.blockData.isEmpty then .ok { it with valid := false }
  else
    let buf := it.blockData.drop it.blockOffset
    if buf.isEmpty then .ok { it with valid := false }
    else
      match readKey buf with
      | none => .error .panic
      | some (key, valueLen, rest) =>
          let value :=
            if valueLen = tombstone then some (none, rest)
            else (splitAt? valueLen rest).map fun v => (some v.1, v.2)
          match value with
          | none => .error .panic
          | some (value, rest) =>
              let consumed := it.blockData.length - it.blockOffset - rest.length
              .ok { it with
                blockOffset := it.blockOffset + consumed
                currentKey := ⟨key, 0⟩
                currentValue := value
                valid := true }

/-- `parse_entry`, which is `next`: at the end of a block the next one is loaded. -/
def parseEntry (it : Iter) : Except TableFailure Iter :=
  if it.blockData.length ≤ it.blockOffset then
    if t.blockMetas.length ≤ it.blockIdx + 1 then .ok { it with valid := false }
    else
      match it.loadBlock codec t cache (it.blockIdx + 1) with
      | .error e => .error e
      | .ok it => it.takeEntry
  else it.takeEntry

/-- `load_block` and then `parse_entry`. -/
def loadAndParse (it : Iter) (idx : ℕ) : Except TableFailure Iter :=
  match it.loadBlock codec t cache idx with
  | .error e => .error e
  | .ok it => it.parseEntry codec t cache

/-- `SSTableIterator::new`. -/
def new : Except TableFailure Iter :=
  let it : Iter :=
    { blockIdx := 0, blockData := [], blockOffset := 0, currentKey := ⟨[], 0⟩
      currentValue := none, valid := false }
  it.loadAndParse codec t cache 0

/-- `seek_to_first`. -/
def seekToFirst (it : Iter) : Except TableFailure Iter :=
  loadAndParse codec t cache { it with blockIdx := 0 } 0

/-- The loop of `seek`. -/
def skipBelow (target : Bytes) : ℕ → Iter → Except TableFailure Iter
  | 0, it => .ok it
  | fuel + 1, it =>
      if it.valid ∧ it.currentKey.data < target then
        match it.parseEntry codec t cache with
        | .error e => .error e
        | .ok it => skipBelow target fuel it
      else .ok it

/-- `seek`. -/
def seek (it : Iter) (target : Bytes) : Except TableFailure Iter :=
  let blockIdx :=
    match BinarySearch.binarySearchBy t.blockMetas fun m => cmp m.firstKey target with
    | .ok idx => idx
    | .error idx => idx - 1
  match loadAndParse codec t cache { it with blockIdx } blockIdx with
  | .error e => .error e
  | .ok it => it.skipBelow codec t cache target t.entriesBound

end Iter

/-- The iterators over a table: a new one, and what the calls make of it. -/
inductive Iter.Reached : Iter → Prop
  | new {cache : BlockCache codec t} {it : Iter} (hnew : Iter.new codec t cache = .ok it) :
      Reached it
  | next {cache : BlockCache codec t} {it it' : Iter} (hit : Reached it)
      (hnext : it.parseEntry codec t cache = .ok it') : Reached it'
  | seek {cache : BlockCache codec t} {it it' : Iter} {target : Bytes} (hit : Reached it)
      (hseek : it.seek codec t cache target = .ok it') : Reached it'
  | seekToFirst {cache : BlockCache codec t} {it it' : Iter} (hit : Reached it)
      (hseek : it.seekToFirst codec t cache = .ok it') : Reached it'

/-- The iterator goes through these entries and then ends, whatever is cached at each step. -/
inductive Iter.Walks : Iter → List Entry → Prop
  | done {it : Iter} (hvalid : it.valid = false) : Walks it []
  | step {it it' : Iter} {e : Entry} {rest : List Entry} (hvalid : it.valid = true)
      (hitem : (it.currentKey, it.currentValue) = SSTableIterator.itemOf e)
      (hnext : ∀ cache, it.parseEntry codec t cache = .ok it') (hrest : Walks it' rest) :
      Walks it (e :: rest)

end Model

/-! ## Blocks and lookups -/

variable {codec : TableCodec} {t : TableFile} {a : SSTable}

theorem readBlock_eq (cache : BlockCache codec t) (idx : ℕ) :
    t.readBlock codec cache idx = t.readBlockFromDisk codec idx := by
  unfold readBlock
  cases hheld : cache.held idx with
  | none => rfl
  | some block => exact (cache.read idx block hheld).symm

theorem Stores.length_blockMetas (h : Stores codec t a) :
    t.blockMetas.length = a.blockMetas.length := by
  rw [← h.keys, List.length_map]

theorem Stores.findBlock_eq (h : Stores codec t a) (key : Bytes) :
    t.findBlock key = a.findBlock key := by
  have hsearch : BinarySearch.binarySearchBy a.blockMetas (fun block =>
      Simd.compareBytes block.firstKey key) =
      BinarySearch.binarySearchBy t.blockMetas fun m => Simd.compareBytes m.firstKey key := by
    rw [← h.keys, BinarySearch.binarySearchBy_map]
  cases hresult : BinarySearch.binarySearchBy t.blockMetas fun m =>
      Simd.compareBytes m.firstKey key with
  | ok idx => simp only [findBlock, SSTable.findBlock, hsearch, hresult]
  | error idx => simp only [findBlock, SSTable.findBlock, hsearch, hresult]

theorem Stores.readBlock_eq {es : List Entry} (h : Stores codec t a) (hholds : a.Holds es)
    (cache : BlockCache codec t) {idx : ℕ} (hidx : idx < a.blockMetas.length) :
    t.readBlock codec cache idx = .ok (encodeBlock (a.readBlock idx)) ∧
      ∀ e ∈ a.readBlock idx, EntryFits e := by
  have hlt : idx < a.blocks.length := by
    rw [← hholds.length_blockMetas]
    exact hidx
  have hread : a.readBlock idx = a.blocks[idx] := by simp [SSTable.readBlock, hlt]
  rw [hread, TableFile.readBlock_eq]
  refine ⟨h.read idx _ (List.getElem?_eq_getElem hlt), ?_⟩
  intro e he
  exact h.fits e (List.mem_flatten_of_mem (List.getElem_mem hlt) he)

/-- A lookup on the file is the lookup on the entries. -/
theorem Stores.get_eq {es : List Entry} (h : Stores codec t a) (hholds : a.Holds es)
    (hbits : 0 < a.bloom.bits.length) (cache : BlockCache codec t) (key : Bytes) :
    t.get codec cache key = .ok (a.get key) := by
  have hprobes : ¬(a.bloom.bits.isEmpty ∧ 0 < a.bloom.numHashes) := by
    rw [List.isEmpty_iff_length_eq_zero]
    omega
  unfold get SSTable.get
  rw [h.bloom, h.findBlock_eq, h.length_blockMetas, if_neg hprobes]
  split
  · rfl
  · simp only
    split
    · rfl
    · next hidx =>
        obtain ⟨hread, hfits⟩ := h.readBlock_eq hholds cache (not_le.mp hidx)
        rw [hread]
        simp only [searchBlock_encodeBlock key hfits]

/-! ## Iterators -/

namespace Iter

/-- The iterator behind an entry. -/
def taken (it : Iter) (e : Entry) : Iter :=
  { it with
    blockOffset := it.blockOffset + (encodeEntry e).length
    currentKey := ⟨e.1, 0⟩
    currentValue := e.2
    valid := true }

variable {it : Iter}

theorem drop_taken {e : Entry} {rest : Bytes}
    (hdata : it.blockData.drop it.blockOffset = encodeEntry e ++ rest) :
    (it.taken e).blockData.drop (it.taken e).blockOffset = rest := by
  show it.blockData.drop (it.blockOffset + (encodeEntry e).length) = rest
  rw [← List.drop_drop, hdata, List.drop_left]

theorem takeEntry_of_le (hend : it.blockData.length ≤ it.blockOffset) :
    it.takeEntry = .ok { it with valid := false } := by
  unfold takeEntry
  split
  · rfl
  · simp [List.drop_eq_nil_iff.mpr hend]

theorem takeEntry_of_lt (hroom : it.blockOffset < it.blockData.length) :
    it.takeEntry =
      match decodeEntry (it.blockData.drop it.blockOffset) with
      | none => .error .panic
      | some (e, _) => .ok (it.taken e) := by
  have hbuf : (it.blockData.drop it.blockOffset).isEmpty = false := by
    simpa using hroom
  have hblock : it.blockData.isEmpty = false := by
    simpa using List.ne_nil_of_length_pos (Nat.zero_lt_of_lt hroom)
  unfold takeEntry
  simp only [hblock, hbuf, Bool.false_eq_true, if_false]
  cases hdecode : decodeEntry (it.blockData.drop it.blockOffset) with
  | none =>
      cases hread : readKey (it.blockData.drop it.blockOffset) with
      | none => rfl
      | some read =>
          -- the key can be read, so the value is cut short
          obtain ⟨key, valueLen, rest⟩ := read
          by_cases htombstone : valueLen = tombstone
          · simp [decodeEntry, hread, htombstone] at hdecode
          · simp only [htombstone, if_false]
            cases hvalue : splitAt? valueLen rest with
            | none => rfl
            | some value => simp [decodeEntry, hread, htombstone, hvalue] at hdecode
  | some decoded =>
      obtain ⟨e, rest⟩ := decoded
      obtain ⟨hfits, hdata⟩ := decodeEntry_eq_some_iff.mp hdecode
      have hconsumed : it.blockData.length - it.blockOffset - rest.length =
          (encodeEntry e).length := by
        rw [← List.length_drop, hdata, List.length_append, Nat.add_sub_cancel]
      rw [hdata, readKey_encodeEntry hfits]
      obtain ⟨key, value⟩ := e
      cases value with
      | none =>
          simp only [if_true, hconsumed]
          rfl
      | some v =>
          have hlive : v.length ≠ tombstone := (hfits.2 v rfl).ne
          simp only [hlive, if_false, splitAt?_append, Option.map_some, hconsumed]
          rfl

/-- A seek starts at the block of a lookup. -/
theorem seek_eq (it : Iter) (cache : BlockCache codec t) (target : Bytes) :
    it.seek codec t cache target =
      match loadAndParse codec t cache { it with blockIdx := t.findBlock target }
        (t.findBlock target) with
      | .error e => .error e
      | .ok it => it.skipBelow codec t cache target t.entriesBound := by
  have hcmp : (fun m : BlockMeta => cmp m.firstKey target) =
      fun m => Simd.compareBytes m.firstKey target := by
    funext m
    rw [Simd.compareBytes_eq]
  unfold seek
  rw [hcmp]
  rfl

end Iter

/-- The iterator over the file stands where the one over the entries does. -/
structure Mirrors (t : TableFile) (a : SSTable) (b : Iter) (it : SSTableIterator) : Prop where
  table : it.table = a
  blockIdx : b.blockIdx = it.blockIdx
  data : b.blockData.drop b.blockOffset = encodeBlock it.blockData
  fits : ∀ e ∈ it.blockData, EntryFits e
  empty : a.blocks = [] → it.blockData = []
  key : b.currentKey = it.currentKey
  value : b.currentValue = it.currentValue
  valid : b.valid = it.valid

namespace Mirrors

variable {es : List Entry} {b : Iter} {it : SSTableIterator}

theorem invalid (h : Mirrors t a b it) :
    Mirrors t a { b with valid := false } { it with valid := false } :=
  ⟨h.table, h.blockIdx, h.data, h.fits, h.empty, h.key, h.value, rfl⟩

theorem loadBlock (h : Mirrors t a b it) (hstores : Stores codec t a) (hholds : a.Holds es)
    (idx : ℕ) : ∃ b', (∀ cache, b.loadBlock codec t cache idx = .ok b') ∧
      Mirrors t a b' (it.loadBlock idx) := by
  have htable := h.table
  by_cases hidx : a.blockMetas.length ≤ idx
  · refine ⟨{ b with valid := false }, ?_, ?_⟩
    · intro cache
      rw [Iter.loadBlock, if_pos (hstores.length_blockMetas ▸ hidx)]
    · rw [SSTableIterator.loadBlock, if_pos (htable ▸ hidx)]
      exact h.invalid
  · refine ⟨{ b with blockData := encodeBlock (a.readBlock idx), blockOffset := 0
                     blockIdx := idx }, ?_, ?_⟩
    · intro cache
      have hread := (hstores.readBlock_eq hholds cache (not_le.mp hidx)).1
      rw [Iter.loadBlock, if_neg (hstores.length_blockMetas ▸ hidx), readBlockCached, hread]
    · rw [SSTableIterator.loadBlock, if_neg (htable ▸ hidx), htable]
      refine ⟨rfl, rfl, rfl, ?_, ?_, h.key, h.value, h.valid⟩
      · exact (hstores.readBlock_eq hholds (BlockCache.empty codec t) (not_le.mp hidx)).2
      · intro hblocks
        simp [SSTable.readBlock, hblocks]

theorem takeEntry (h : Mirrors t a b it) :
    ∃ b', b.takeEntry = .ok b' ∧ Mirrors t a b' it.takeEntry := by
  have hdata := h.data
  cases hrest : it.blockData with
  | nil =>
      rw [hrest] at hdata
      have htake : it.takeEntry = { it with valid := false } := by
        unfold SSTableIterator.takeEntry
        rw [hrest]
      rw [htake]
      exact ⟨_, Iter.takeEntry_of_le (List.drop_eq_nil_iff.mp hdata), h.invalid⟩
  | cons e rest =>
      rw [hrest, encodeBlock, List.flatMap_cons, ← encodeBlock] at hdata
      have hfits := h.fits
      rw [hrest] at hfits
      obtain ⟨he, hfits⟩ := List.forall_mem_cons.mp hfits
      have hroom : b.blockOffset < b.blockData.length := by
        rw [← not_le, ← List.drop_eq_nil_iff, hdata]
        simp [encodeEntry_ne_nil e]
      refine ⟨b.taken e, ?_, ?_⟩
      · rw [Iter.takeEntry_of_lt hroom, decodeEntry_eq_some_iff.mpr ⟨he, hdata⟩]
      · rw [SSTableIterator.takeEntry, hrest]
        refine ⟨h.table, h.blockIdx, Iter.drop_taken hdata, hfits, ?_, rfl, rfl, rfl⟩
        intro hblocks
        have hnil := h.empty hblocks
        rw [hrest] at hnil
        contradiction

theorem parseEntry (h : Mirrors t a b it) (hstores : Stores codec t a) (hholds : a.Holds es) :
    ∃ b', (∀ cache, b.parseEntry codec t cache = .ok b') ∧ Mirrors t a b' it.parseEntry := by
  have hend : b.blockData.length ≤ b.blockOffset ↔ it.blockData.isEmpty = true := by
    rw [← List.drop_eq_nil_iff, h.data, encodeBlock_eq_nil_iff, List.isEmpty_iff]
  have hlast : t.blockMetas.length ≤ b.blockIdx + 1 ↔
      it.table.blockMetas.length ≤ it.blockIdx + 1 := by
    rw [h.table, h.blockIdx, hstores.length_blockMetas]
  unfold Iter.parseEntry SSTableIterator.parseEntry
  by_cases hempty : it.blockData.isEmpty = true
  · by_cases hdone : it.table.blockMetas.length ≤ it.blockIdx + 1
    · refine ⟨{ b with valid := false }, ?_, ?_⟩
      · intro cache
        rw [if_pos (hend.mpr hempty), if_pos (hlast.mpr hdone)]
      · rw [if_pos hempty, if_pos hdone]
        exact h.invalid
    · obtain ⟨loaded, hload, hmirrors⟩ := h.loadBlock hstores hholds (it.blockIdx + 1)
      obtain ⟨b', htake, hb'⟩ := hmirrors.takeEntry
      refine ⟨b', ?_, ?_⟩
      · intro cache
        rw [if_pos (hend.mpr hempty), if_neg (mt hlast.mp hdone), h.blockIdx, hload cache]
        exact htake
      · rw [if_pos hempty, if_neg hdone]
        exact hb'
  · obtain ⟨b', htake, hb'⟩ := h.takeEntry
    refine ⟨b', ?_, ?_⟩
    · intro cache
      rw [if_neg (mt hend.mp hempty)]
      exact htake
    · rw [if_neg hempty]
      exact hb'

theorem loadAndParse (h : Mirrors t a b it) (hstores : Stores codec t a) (hholds : a.Holds es)
    (idx : ℕ) : ∃ b', (∀ cache, b.loadAndParse codec t cache idx = .ok b') ∧
      Mirrors t a b' (it.loadBlock idx).parseEntry := by
  obtain ⟨loaded, hload, hmirrors⟩ := h.loadBlock hstores hholds idx
  obtain ⟨b', hparse, hb'⟩ := hmirrors.parseEntry hstores hholds
  refine ⟨b', ?_, hb'⟩
  intro cache
  rw [Iter.loadAndParse, hload cache]
  exact hparse cache

theorem skipBelow (h : Mirrors t a b it) (hstores : Stores codec t a) (hholds : a.Holds es)
    (target : Bytes) (fuel : ℕ) :
    ∃ b', (∀ cache, b.skipBelow codec t cache target fuel = .ok b') ∧
      Mirrors t a b' (it.skipBelow target fuel) := by
  induction fuel generalizing b it with
  | zero => exact ⟨b, fun _ => rfl, h⟩
  | succ fuel ih =>
      have hcond : (b.valid ∧ b.currentKey.data < target) ↔
          (it.valid ∧ it.currentKey.data < target) := by
        rw [h.valid, h.key]
      by_cases hbelow : it.valid ∧ it.currentKey.data < target
      · obtain ⟨parsed, hparse, hmirrors⟩ := h.parseEntry hstores hholds
        obtain ⟨b', hskip, hb'⟩ := ih hmirrors
        refine ⟨b', ?_, ?_⟩
        · intro cache
          rw [Iter.skipBelow, if_pos (hcond.mpr hbelow), hparse cache]
          exact hskip cache
        · rw [SSTableIterator.skipBelow, if_pos hbelow]
          exact hb'
      · refine ⟨b, ?_, ?_⟩
        · intro cache
          rw [Iter.skipBelow, if_neg (mt hcond.mp hbelow)]
        · rw [SSTableIterator.skipBelow, if_neg hbelow]
          exact h

theorem walks (hstores : Stores codec t a) (hholds : a.Holds es) {rest : List Entry}
    (h : Mirrors t a b it) (hyields : Yields it (rest.map SSTableIterator.itemOf)) :
    b.Walks codec t rest := by
  induction rest generalizing b it with
  | nil =>
      have hvalid : it.valid = false := hyields.isValid_eq
      exact .done (h.valid.trans hvalid)
  | cons e rest ih =>
      have hvalid : it.valid = true := hyields.isValid_eq
      have hkey : it.currentKey = ⟨e.1, 0⟩ := hyields.key_eq
      have hvalue : it.currentValue = e.2 := hyields.value_eq
      obtain ⟨it', hnext, hrest⟩ := hyields.next_eq
      obtain ⟨b', hparse, hmirrors⟩ := h.parseEntry hstores hholds
      have hit' : it.parseEntry = it' := congrArg Prod.snd hnext
      rw [hit'] at hmirrors
      refine .step (h.valid.trans hvalid) ?_ hparse (ih hmirrors hrest)
      rw [h.key, h.value, hkey, hvalue]
      rfl

theorem seek (h : Mirrors t a b it) (hstores : Stores codec t a) (hholds : a.Holds es)
    (target : Bytes) : ∃ b', (∀ cache, b.seek codec t cache target = .ok b') ∧
      Mirrors t a b' ((it.landing target).skipBelow target t.entriesBound) := by
  have hfound : Mirrors t a { b with blockIdx := a.findBlock target }
      { it with blockIdx := it.table.findBlock target } := by
    refine ⟨h.table, ?_, h.data, h.fits, h.empty, h.key, h.value, h.valid⟩
    rw [h.table]
  obtain ⟨landed, hland, hmirrors⟩ := hfound.loadAndParse hstores hholds (a.findBlock target)
  obtain ⟨b', hskip, hb'⟩ := hmirrors.skipBelow hstores hholds target t.entriesBound
  refine ⟨b', ?_, ?_⟩
  · intro cache
    rw [b.seek_eq, hstores.findBlock_eq, hland cache]
    exact hskip cache
  · rw [SSTableIterator.landing, h.table]
    rw [h.table] at hb'
    exact hb'

end Mirrors

theorem Stores.exists_new {es : List Entry} (h : Stores codec t a) (hholds : a.Holds es) :
    ∃ b, (∀ cache, Iter.new codec t cache = .ok b) ∧ Mirrors t a b (SSTableIterator.new a) := by
  have hstart : Mirrors t a
      { blockIdx := 0, blockData := [], blockOffset := 0, currentKey := ⟨[], 0⟩
        currentValue := none, valid := false }
      { table := a, blockIdx := 0, blockData := [], currentKey := ⟨[], 0⟩, currentValue := none
        valid := false } := by
    refine ⟨rfl, rfl, rfl, ?_, fun _ => rfl, rfl, rfl, rfl⟩
    intro e he
    exact absurd he List.not_mem_nil
  exact hstart.loadAndParse h hholds 0

/-- Every iterator stands where one over the entries does. -/
theorem Iter.Reached.exists_mirrors {es : List Entry} {b : Iter} (hb : b.Reached codec t)
    (h : Stores codec t a) (hholds : a.Holds es) : ∃ it, Mirrors t a b it := by
  induction hb with
  | @new cache _ hnew =>
      obtain ⟨b, hb, hmirrors⟩ := h.exists_new hholds
      obtain rfl := Except.ok.inj ((hb cache).symm.trans hnew)
      exact ⟨_, hmirrors⟩
  | @next cache _ _ _ hnext ih =>
      obtain ⟨it, hmirrors⟩ := ih
      obtain ⟨b, hb, hmirrors⟩ := hmirrors.parseEntry h hholds
      obtain rfl := Except.ok.inj ((hb cache).symm.trans hnext)
      exact ⟨_, hmirrors⟩
  | @seek cache _ _ target _ hseek ih =>
      obtain ⟨it, hmirrors⟩ := ih
      obtain ⟨b, hb, hmirrors⟩ := hmirrors.seek h hholds target
      obtain rfl := Except.ok.inj ((hb cache).symm.trans hseek)
      exact ⟨_, hmirrors⟩
  | @seekToFirst cache before _ _ hseek ih =>
      obtain ⟨it, hmirrors⟩ := ih
      have hfirst : Mirrors t a { before with blockIdx := 0 } { it with blockIdx := 0 } :=
        ⟨hmirrors.table, rfl, hmirrors.data, hmirrors.fits, hmirrors.empty, hmirrors.key,
          hmirrors.value, hmirrors.valid⟩
      obtain ⟨b, hb, hmirrors⟩ := hfirst.loadAndParse h hholds 0
      obtain rfl := Except.ok.inj ((hb cache).symm.trans hseek)
      exact ⟨_, hmirrors⟩

/-! ## Tables with increasing keys -/

section Increasing

variable {es : List Entry} (hholds : a.Holds es) (hsorted : es.Pairwise fun x y => x.1 < y.1)

include hholds hsorted

theorem unsplit_of_increasing (key : Bytes) : a.Unsplit key := by
  rw [← hholds.flatten_blocks] at hsorted
  refine (List.pairwise_flatten.mp hsorted).2.imp ?_
  intro block block' hapart hboth
  obtain ⟨e, he, hkey⟩ := List.mem_map.mp hboth.1
  obtain ⟨e', he', hkey'⟩ := List.mem_map.mp hboth.2
  have hlt := hapart e he e' he'
  rw [hkey, hkey'] at hlt
  exact lt_irrefl key hlt

theorem get_eq_some_iff_of_increasing (key value : Bytes) :
    a.get key = some value ↔ (key, some value) ∈ es := by
  have hle : es.Pairwise fun x y => x.1 ≤ y.1 := hsorted.imp le_of_lt
  rw [hholds.get_eq hle (unsplit_of_increasing hholds hsorted key), Option.bind_eq_some_iff]
  constructor
  · rintro ⟨e, he, hvalue⟩
    have hkey : e.1 = key := by simpa using List.find?_some he
    have hmem := List.mem_of_find?_eq_some he
    rwa [← hkey, ← hvalue]
  · intro hmem
    have hsome : (es.find? fun e => decide (e.1 = key)).isSome := by
      rw [List.find?_isSome]
      exact ⟨_, hmem, by simp⟩
    obtain ⟨first, hfirst⟩ := Option.isSome_iff_exists.mp hsome
    refine ⟨first, hfirst, ?_⟩
    have hkey : first.1 = key := by simpa using List.find?_some hfirst
    -- two entries of one key would not be in increasing order
    have heq : first = (key, some value) := by
      by_contra hne
      have hdistinct : es.Pairwise fun x y : Entry => x.1 ≠ y.1 := hsorted.imp ne_of_lt
      have hsymm : Std.Symm fun x y : Entry => x.1 ≠ y.1 := ⟨fun _ _ hxy => hxy.symm⟩
      exact hdistinct.forall (List.mem_of_find?_eq_some hfirst) hmem hne hkey
    rw [heq]

end Increasing

/-- **A table file reads back as the entries it was built from**: by iterating, by seeking from
any position, and by looking up. -/
theorem read_build (hcodec : codec.Inverts) (id estimatedKeys : ℕ) (compression : CompressionType)
    (entries : List Entry) (hsorted : entries.Pairwise fun x y => x.1 < y.1)
    (hfits : Fits codec compression (SSTableBuilder.build id estimatedKeys entries)) :
    ∃ t, openFile id (Builder.build codec id estimatedKeys compression entries) = .ok t ∧
      (∃ it, (∀ cache, Iter.new codec t cache = .ok it) ∧ it.Walks codec t entries) ∧
      (∀ it : Iter, it.Reached codec t → ∀ target, ∃ it',
        (∀ cache, it.seek codec t cache target = .ok it') ∧
        it'.Walks codec t (entries.filter fun e => decide (target ≤ e.1))) ∧
      ∀ cache key, ∃ answer, t.get codec cache key = .ok answer ∧
        ∀ value, answer = some value ↔ (key, some value) ∈ entries := by
  have hholds := SSTableBuilder.holds_build id estimatedKeys entries
  have hle : entries.Pairwise fun x y => x.1 ≤ y.1 := hsorted.imp le_of_lt
  obtain ⟨t, hopen, hstores⟩ := openFile_build hcodec id estimatedKeys compression entries hfits
  have hbits := SSTableBuilder.bloom_build_pos id estimatedKeys entries
  generalize SSTableBuilder.build id estimatedKeys entries = a at hholds hstores hbits
  refine ⟨t, hopen, ?_, ?_, ?_⟩
  · obtain ⟨it, hnew, hmirrors⟩ := hstores.exists_new hholds
    exact ⟨it, hnew, hmirrors.walks hstores hholds (SSTableIterator.yields_new hholds)⟩
  · intro it hreached target
    obtain ⟨position, hmirrors⟩ := hreached.exists_mirrors hstores hholds
    obtain ⟨it', hseek, hlanded⟩ := hmirrors.seek hstores hholds target
    have htable := hmirrors.table
    have hempty : position.table.blocks = [] → position.blockData = [] := htable ▸ hmirrors.empty
    have hbound : (position.table.blocks.drop (position.table.findBlock target)).flatten.length ≤
        t.entriesBound := by
      rw [htable]
      have hsplit : a.entries = (a.blocks.take (a.findBlock target)).flatten ++
          (a.blocks.drop (a.findBlock target)).flatten := by
        rw [← List.flatten_append, List.take_append_drop, SSTable.entries]
      have hbound := hstores.bound
      rw [hsplit, List.length_append] at hbound
      omega
    -- the seek lands at its block, and skips what is below the target there
    have hyields := SSTableIterator.yields_skipBelow_landing (htable ▸ hholds) hle hempty target
      hbound
    have hfrom : position.table.entriesFrom target = entries.filter fun e =>
        decide (target ≤ e.1) := by
      rw [htable]
      exact hholds.entriesFrom_eq_filter hle (unsplit_of_increasing hholds hsorted target)
    rw [hfrom] at hyields
    exact ⟨it', hseek, hlanded.walks hstores hholds hyields⟩
  · intro cache key
    refine ⟨a.get key, hstores.get_eq hholds hbits cache key, ?_⟩
    intro value
    exact get_eq_some_iff_of_increasing hholds hsorted key value

/-- The length in front of an LZ4 block that has nothing but literals. -/
def literalHeader (length : ℕ) : Bytes :=
  if length < 15 then [UInt8.ofNat (length * 16)]
  else 0xF0 :: (List.replicate ((length - 15) / 255) 255 ++ [UInt8.ofNat ((length - 15) % 255)])

/-- CRC-32, and LZ4 without matches, which is what there is of it for short blocks. -/
def literalCodec : TableCodec where
  crc32 := WalHistory.storingCodec.crc32
  compress data := literalHeader data.length ++ data
  decompressInto data uncompressedLen := .ok (data.drop (data.length - uncompressedLen))

theorem inverts_literalCodec : literalCodec.Inverts := by
  intro data _
  have hheader : (literalHeader data.length ++ data).length - data.length =
      (literalHeader data.length).length := by
    rw [List.length_append, Nat.add_sub_cancel]
  show Except.ok ((literalHeader data.length ++ data).drop
    ((literalHeader data.length ++ data).length - data.length)) = .ok data
  rw [hheader, List.drop_left]

/-- An entry of each kind. -/
def mixedEntries : List Entry := [([], some [5]), ([1], none), ([1, 2], some [])]

theorem read_build_mixedEntries :
    ∃ t, openFile 1 (Builder.build literalCodec 1 3 .none mixedEntries) = .ok t ∧
      (∃ it, (∀ cache, Iter.new literalCodec t cache = .ok it) ∧
        it.Walks literalCodec t mixedEntries) ∧
      (∀ it : Iter, it.Reached literalCodec t → ∀ target, ∃ it',
        (∀ cache, it.seek literalCodec t cache target = .ok it') ∧
        it'.Walks literalCodec t (mixedEntries.filter fun e => decide (target ≤ e.1))) ∧
      ∀ cache key, ∃ answer, t.get literalCodec cache key = .ok answer ∧
        ∀ value, answer = some value ↔ (key, some value) ∈ mixedEntries :=
  read_build inverts_literalCodec 1 3 .none mixedEntries (by decide)
    { entries := by decide
      blocks := by decide
      numBlocks := by decide
      bloom := by decide }

end TableFile
end Crabstash

import Crabstash.Common.Error
import Crabstash.Foundations.PriorityQueue
import Crabstash.Storage.MemTable
import Crabstash.Storage.SSTable

/-!
# Iterators

`StorageIterator` of `iterator.rs` and its instances: over a memtable, over a
table, the merge of any number of iterators, the merge of two, and the cut at an
upper bound.

`Yields it items` says that an iterator goes through `items` and then ends,
without an error.  Every instance is described by what it yields when the
iterators inside it yield something.
-/

namespace Crabstash

/-- What an iterator stands on: a versioned key and a value or a tombstone. -/
abbrev Item := Key × Option Bytes

/-- `StorageIterator`.  `key` and `value` are only asked for on a valid iterator, where
the source does not panic.  `remaining` is not in the source: an upper bound on the
number of entries to come, which the loops over iterators use as their fuel. -/
class StorageIterator (ι : Type) where
  key : ι → Key
  value : ι → Option Bytes
  isValid : ι → Bool
  next : ι → Except Error Unit × ι
  remaining : ι → ℕ

open StorageIterator

/-- The iterator goes through these items and then ends. -/
inductive Yields {ι : Type} [StorageIterator ι] : ι → List Item → Prop
  | done {it : ι} (hvalid : isValid it = false) : Yields it []
  | step {it it' : ι} {item : Item} {rest : List Item} (hvalid : isValid it = true)
      (hitem : (key it, value it) = item) (hremaining : rest.length < remaining it)
      (hnext : next it = (.ok (), it')) (hrest : Yields it' rest) : Yields it (item :: rest)

namespace Yields

variable {ι : Type} [StorageIterator ι] {it : ι} {item : Item} {items rest : List Item}

theorem isValid_eq (h : Yields it items) : isValid it = !items.isEmpty := by
  cases h with
  | done hvalid => exact hvalid
  | step hvalid => exact hvalid

theorem length_le (h : Yields it items) : items.length ≤ remaining it := by
  cases h with
  | done => exact Nat.zero_le _
  | step _ _ hremaining => exact hremaining

theorem key_eq (h : Yields it (item :: rest)) : key it = item.1 := by
  cases h with
  | step _ hitem => exact congrArg Prod.fst hitem

theorem value_eq (h : Yields it (item :: rest)) : value it = item.2 := by
  cases h with
  | step _ hitem => exact congrArg Prod.snd hitem

theorem next_eq (h : Yields it (item :: rest)) : ∃ it', next it = (.ok (), it') ∧ Yields it' rest := by
  cases h with
  | step _ _ _ hnext hrest => exact ⟨_, hnext, hrest⟩

/-- What an iterator goes through is determined. -/
theorem unique {items' : List Item} (h : Yields it items) (h' : Yields it items') :
    items = items' := by
  induction h generalizing items' with
  | done hvalid =>
      have hempty := h'.isValid_eq
      rw [hvalid] at hempty
      exact (List.isEmpty_iff.mp (by simpa using hempty.symm)).symm
  | @step it it₁ item rest hvalid hitem _ hnext _ ih =>
      cases h' with
      | done hinvalid =>
          rw [hvalid] at hinvalid
          contradiction
      | @step _ it₂ item' rest' _ hitem' _ hnext' hrest' =>
          obtain rfl : it₁ = it₂ := congrArg Prod.snd (hnext.symm.trans hnext')
          rw [← hitem, ← hitem', ih hrest']

end Yields

/-! ## Memtables -/

/-- The entries as they were when the iterator was made, and its position. -/
structure MemTableIterator where
  entries : List Item
  index : ℕ

namespace MemTableIterator

/-- `MemTableIterator::new`. -/
def new (m : MemTable) : MemTableIterator := { entries := m.iter, index := 0 }

/-- `seek`: the position a binary search over the key data reports. -/
def seek (it : MemTableIterator) (target : Bytes) : MemTableIterator :=
  { it with
    index :=
      match BinarySearch.binarySearchBy it.entries fun e => cmp e.1.data target with
      | .ok idx => idx
      | .error idx => idx }

instance : StorageIterator MemTableIterator where
  key it := (it.entries[it.index]?.map Prod.fst).getD ⟨[], 0⟩
  value it := it.entries[it.index]?.bind Prod.snd
  isValid it := decide (it.index < it.entries.length)
  next it := (.ok (), { it with index := it.index + 1 })
  remaining it := it.entries.length - it.index

theorem yields (entries : List Item) (index : ℕ) :
    Yields (⟨entries, index⟩ : MemTableIterator) (entries.drop index) := by
  generalize hn : entries.length - index = n
  induction n generalizing index with
  | zero =>
      have hle : entries.length ≤ index := by omega
      rw [List.drop_eq_nil_of_le hle]
      exact Yields.done (decide_eq_false (not_lt.mpr hle))
  | succ n ih =>
      have hlt : index < entries.length := by omega
      rw [List.drop_eq_getElem_cons hlt]
      refine Yields.step (decide_eq_true hlt) ?_ ?_ rfl (ih (index + 1) (by omega))
      · simp [key, value, hlt]
      · simp only [remaining, List.length_drop]
        omega

theorem yields_new (m : MemTable) : Yields (new m) m.iter := yields m.iter 0

end MemTableIterator

/-! ## Tables -/

/-- `blockData` is what `block_offset` leaves of the block. -/
structure SSTableIterator where
  table : SSTable
  blockIdx : ℕ
  blockData : List Entry
  currentKey : Key
  currentValue : Option Bytes
  valid : Bool

namespace SSTableIterator

/-- `load_block`; behind the last block the iterator ends. -/
def loadBlock (it : SSTableIterator) (idx : ℕ) : SSTableIterator :=
  if it.table.blockMetas.length ≤ idx then { it with valid := false }
  else { it with blockData := it.table.readBlock idx, blockIdx := idx }

/-- The end of `parse_entry`: the first entry of what is left of the block. -/
def takeEntry (it : SSTableIterator) : SSTableIterator :=
  match it.blockData with
  | [] => { it with valid := false }
  | (key, value) :: rest =>
      { it with
        blockData := rest
        currentKey := ⟨key, 0⟩
        currentValue := value
        valid := true }

/-- `parse_entry`: at the end of a block the next one is loaded, if there is one. -/
def parseEntry (it : SSTableIterator) : SSTableIterator :=
  if it.blockData.isEmpty then
    if it.table.blockMetas.length ≤ it.blockIdx + 1 then { it with valid := false }
    else (it.loadBlock (it.blockIdx + 1)).takeEntry
  else it.takeEntry

/-- `SSTableIterator::new`: the first entry of the first block. -/
def new (table : SSTable) : SSTableIterator :=
  let it : SSTableIterator :=
    { table, blockIdx := 0, blockData := [], currentKey := ⟨[], 0⟩, currentValue := none
      valid := false }
  (it.loadBlock 0).parseEntry

instance : StorageIterator SSTableIterator where
  key it := it.currentKey
  value it := it.currentValue
  isValid it := it.valid
  next it := (.ok (), it.parseEntry)
  remaining it := it.blockData.length + (it.table.blocks.drop (it.blockIdx + 1)).flatten.length + 1

/-- The loop of `seek`: entries below the target are skipped. -/
def skipBelow (target : Bytes) : ℕ → SSTableIterator → SSTableIterator
  | 0, it => it
  | fuel + 1, it =>
      if it.valid ∧ it.currentKey.data < target then skipBelow target fuel it.parseEntry else it

/-- `seek`: the block is found by its first key, and in it entries below the target are
skipped. -/
def seek (it : SSTableIterator) (target : Bytes) : SSTableIterator :=
  let blockIdx :=
    match BinarySearch.binarySearchBy it.table.blockMetas fun block => cmp block.firstKey target with
    | .ok idx => idx
    | .error idx => idx - 1
  let it := (({ it with blockIdx } : SSTableIterator).loadBlock blockIdx).parseEntry
  skipBelow target (remaining it) it

@[simp] theorem table_takeEntry (it : SSTableIterator) : it.takeEntry.table = it.table := by
  unfold takeEntry
  split <;> rfl

@[simp] theorem table_loadBlock (it : SSTableIterator) (idx : ℕ) :
    (it.loadBlock idx).table = it.table := by
  unfold loadBlock
  split <;> rfl

@[simp] theorem table_parseEntry (it : SSTableIterator) : it.parseEntry.table = it.table := by
  unfold parseEntry
  split
  · split
    · rfl
    · rw [table_takeEntry, table_loadBlock]
  · exact table_takeEntry it

@[simp] theorem table_new (t : SSTable) : (new t).table = t := by
  rw [new, table_parseEntry, table_loadBlock]

/-- The item an entry of a table is seen as; tables have no timestamps. -/
def itemOf (e : Entry) : Item := (⟨e.1, 0⟩, e.2)

/-- The entries of the blocks after the current one. -/
def after (it : SSTableIterator) : List Entry := (it.table.blocks.drop (it.blockIdx + 1)).flatten

theorem yields_takeEntry {it : SSTableIterator} {e : Entry} {rest : List Entry}
    (hdata : it.blockData = e :: rest)
    (hnext : Yields it.takeEntry.parseEntry ((rest ++ it.after).map itemOf)) :
    Yields it.takeEntry ((e :: (rest ++ it.after)).map itemOf) := by
  have htake : it.takeEntry =
      { it with
        blockData := rest
        currentKey := ⟨e.1, 0⟩
        currentValue := e.2
        valid := true } := by
    unfold takeEntry
    rw [hdata]
  rw [htake] at hnext ⊢
  refine Yields.step rfl rfl ?_ rfl hnext
  simp only [remaining, List.length_map, List.length_append, after]
  omega

/-- From a position with `blockData` left of a block, the next step goes on through the
rest of the block and the blocks after it. -/
theorem yields_parseEntry {es : List Entry} (n : ℕ) (it : SSTableIterator)
    (hholds : it.table.Holds es) (hn : (it.blockData ++ it.after).length = n) :
    Yields it.parseEntry ((it.blockData ++ it.after).map itemOf) := by
  induction n generalizing it with
  | zero =>
      obtain ⟨hdata, hafter⟩ := List.append_eq_nil_iff.mp (List.eq_nil_of_length_eq_zero hn)
      -- a block after this one would have entries
      have hlast : it.table.blockMetas.length ≤ it.blockIdx + 1 := by
        rw [hholds.length_blockMetas]
        by_contra hlt
        have hlt : it.blockIdx + 1 < it.table.blocks.length := not_le.mp hlt
        rw [after, List.drop_eq_getElem_cons hlt, List.flatten_cons, List.append_eq_nil_iff]
          at hafter
        exact hholds.blocks_ne_nil _ (List.getElem_mem hlt) hafter.1
      rw [hdata, hafter]
      refine Yields.done ?_
      simp [parseEntry, hdata, hlast, isValid]
  | succ n ih =>
      cases hdata : it.blockData with
      | cons e rest =>
          have hparse : it.parseEntry = it.takeEntry := by simp [parseEntry, hdata]
          have htake : it.takeEntry.blockData = rest ∧ it.takeEntry.after = it.after ∧
              it.takeEntry.table = it.table := by simp [takeEntry, hdata, after]
          obtain ⟨hrest, hafter, htable⟩ := htake
          have hnext := ih it.takeEntry (htable ▸ hholds) (by
            rw [hdata] at hn
            rw [hrest, hafter]
            simpa using hn)
          rw [hrest, hafter] at hnext
          rw [hparse]
          exact yields_takeEntry hdata hnext
      | nil =>
          -- the block is used up: the next one is loaded
          have hlt : it.blockIdx + 1 < it.table.blocks.length := by
            by_contra hge
            have hafter : it.after = [] := by
              rw [after, List.drop_eq_nil_of_le (not_lt.mp hge), List.flatten_nil]
            rw [hdata, hafter] at hn
            contradiction
          have hlen := hholds.length_blockMetas
          obtain ⟨e, rest, hblock⟩ :=
            List.exists_cons_of_ne_nil (hholds.blocks_ne_nil _ (List.getElem_mem hlt))
          have hload : it.loadBlock (it.blockIdx + 1) =
              { it with blockData := e :: rest, blockIdx := it.blockIdx + 1 } := by
            have hin : ¬ it.table.blockMetas.length ≤ it.blockIdx + 1 := by omega
            have hread : it.table.readBlock (it.blockIdx + 1) = e :: rest := by
              simp [SSTable.readBlock, hlt, hblock]
            rw [loadBlock, if_neg hin, hread]
          have hparse : it.parseEntry = (it.loadBlock (it.blockIdx + 1)).takeEntry := by
            have hin : ¬ it.table.blockMetas.length ≤ it.blockIdx + 1 := by omega
            simp [parseEntry, hdata, hin]
          have hafter : it.after =
              e :: (rest ++ (it.loadBlock (it.blockIdx + 1)).after) := by
            rw [hload, after, after, List.drop_eq_getElem_cons hlt, List.flatten_cons, hblock]
            rfl
          have hnext := ih (it.loadBlock (it.blockIdx + 1)).takeEntry
            (by rw [hload]; exact hholds)
            (by
              rw [hdata, hafter] at hn
              rw [hload] at hn ⊢
              simpa [takeEntry, after] using hn)
          rw [hparse, List.nil_append, hafter]
          refine yields_takeEntry (by rw [hload]) ?_
          rw [hload] at hnext ⊢
          exact hnext

/-- An iterator over a table goes through its entries. -/
theorem yields_new {t : SSTable} {es : List Entry} (hholds : t.Holds es) :
    Yields (new t) (es.map itemOf) := by
  have hlen := hholds.length_blockMetas
  cases hblocks : t.blocks with
  | nil =>
      have hes : es = [] := by
        rw [← hholds.flatten_blocks, hblocks, List.flatten_nil]
      have hmetas : t.blockMetas.length = 0 := by
        rw [hlen, hblocks, List.length_nil]
      rw [hes]
      refine Yields.done ?_
      simp [new, loadBlock, parseEntry, hmetas, isValid]
  | cons block rest =>
      have hin : ¬ t.blockMetas.length ≤ 0 := by
        rw [hlen, hblocks, List.length_cons]
        omega
      have hload : new t = SSTableIterator.parseEntry
          { table := t, blockIdx := 0, blockData := block, currentKey := ⟨[], 0⟩
            currentValue := none, valid := false } := by
        simp [new, loadBlock, hin, SSTable.readBlock, hblocks]
      rw [hload]
      have hyields := yields_parseEntry _
        { table := t, blockIdx := 0, blockData := block, currentKey := ⟨[], 0⟩
          currentValue := none, valid := false } hholds rfl
      simpa [after, ← hholds.flatten_blocks, hblocks] using hyields

end SSTableIterator

/-! ## The merge of any number of iterators -/

/-- An iterator in the heap with its position among the sources. -/
structure HeapEntry (ι : Type) where
  iter : ι
  index : ℕ

namespace HeapEntry

variable {ι : Type} [StorageIterator ι]

/-- `<HeapEntry as Ord>::cmp`: the least key is the greatest entry, and of two entries
with equal keys the one with the larger index. -/
def cmp (self other : HeapEntry ι) : Ordering :=
  ((key other.iter).cmp (key self.iter)).then (compare self.index other.index)

/-- The test the heap makes. -/
def lt (self other : HeapEntry ι) : Bool := self.cmp other == .lt

end HeapEntry

/-- The heap, and the entry that has been taken from it. -/
structure MergeIterator (ι : Type) where
  heap : List (HeapEntry ι)
  current : Option (HeapEntry ι)

namespace MergeIterator

variable {ι : Type} [StorageIterator ι]

/-- How many items the iterators in the heap have left. -/
def heapRemaining (heap : List (HeapEntry ι)) : ℕ := (heap.map fun e => remaining e.iter).sum

/-- `self.current = self.heap.pop()`. -/
def popCurrent (heap : List (HeapEntry ι)) : MergeIterator ι :=
  match PriorityQueue.popMax HeapEntry.lt heap with
  | none => { heap := [], current := none }
  | some (greatest, others) => { heap := others, current := some greatest }

/-- `MergeIterator::new`: iterators that are at their end do not enter the heap. -/
def new (iters : List ι) : MergeIterator ι :=
  popCurrent ((iters.zipIdx.map fun (iter, index) => ⟨iter, index⟩).filter
    fun e : HeapEntry ι => isValid e.iter)

/-- `if entry.iter.is_valid() { heap.push(entry) }`. -/
def pushValid (heap : List (HeapEntry ι)) (entry : HeapEntry ι) : List (HeapEntry ι) :=
  if isValid entry.iter then entry :: heap else heap

/-- The loop of `next`: every entry that stands on the key data `data` moves on by one. -/
def skipDuplicates (data : Bytes) : ℕ → List (HeapEntry ι) →
    Except Error Unit × List (HeapEntry ι)
  | 0, heap => (.ok (), heap)
  | fuel + 1, heap =>
      match PriorityQueue.popMax HeapEntry.lt heap with
      | none => (.ok (), heap)
      | some (top, others) =>
          if (key top.iter).data ≠ data then (.ok (), heap)
          else
            match next top.iter with
            | (.error e, _) => (.error e, others)
            | (.ok (), iter) => skipDuplicates data fuel (pushValid others { top with iter })

/-- `next`.  An error leaves the iterator without a current entry. -/
def advance (it : MergeIterator ι) : Except Error Unit × MergeIterator ι :=
  match it.current with
  | none => (.ok (), it)
  | some entry =>
      let data := (key entry.iter).data
      match next entry.iter with
      | (.error e, _) => (.error e, { heap := it.heap, current := none })
      | (.ok (), iter) =>
          let heap := pushValid it.heap { entry with iter }
          match skipDuplicates data (heapRemaining heap) heap with
          | (.error e, heap) => (.error e, { heap, current := none })
          | (.ok (), heap) => (.ok (), popCurrent heap)

instance : StorageIterator (MergeIterator ι) where
  key it := (it.current.map fun e => key e.iter).getD ⟨[], 0⟩
  value it := it.current.bind fun e => value e.iter
  isValid it := it.current.isSome
  next := advance
  remaining it := heapRemaining it.heap + (it.current.map fun e => remaining e.iter).getD 0

end MergeIterator

/-! ## The merge of two iterators -/

/-- Two sources, and which of them has the current item. -/
structure TwoMergeIterator (α β : Type) where
  a : α
  b : β
  useA : Bool

namespace TwoMergeIterator

variable {α β : Type} [StorageIterator α] [StorageIterator β]

/-- `choose_a`: of two equal keys the one of `a`. -/
def chooseA (a : α) (b : β) : Bool :=
  if !isValid a then false
  else if !isValid b then true
  else (key a).cmp (key b) != .gt

/-- `TwoMergeIterator::new`. -/
def new (a : α) (b : β) : TwoMergeIterator α β := { a, b, useA := chooseA a b }

/-- `next`.  When both stand on the same key data, both move on. -/
def advance (it : TwoMergeIterator α β) : Except Error Unit × TwoMergeIterator α β :=
  if it.useA then
    let skipped :=
      if isValid it.b && (key it.a).data == (key it.b).data then next it.b else (.ok (), it.b)
    match skipped with
    | (.error e, b) => (.error e, { it with b })
    | (.ok (), b) =>
        match next it.a with
        | (.error e, a) => (.error e, { it with a, b })
        | (.ok (), a) => (.ok (), new a b)
  else
    match next it.b with
    | (.error e, b) => (.error e, { it with b })
    | (.ok (), b) => (.ok (), new it.a b)

instance : StorageIterator (TwoMergeIterator α β) where
  key it := if it.useA then key it.a else key it.b
  value it := if it.useA then value it.a else value it.b
  isValid it := isValid it.a || isValid it.b
  next := advance
  remaining it := remaining it.a + remaining it.b

end TwoMergeIterator

/-! ## The cut at an upper bound -/

/-- An iterator that ends at a bound. -/
structure BoundedIterator (ι : Type) where
  inner : ι
  endBound : Bound
  valid : Bool

/-- Is the key below the end? -/
def Bound.admits : Bound → Bytes → Bool
  | unbounded, _ => true
  | included last, data => decide (data ≤ last)
  | excluded last, data => decide (data < last)

namespace BoundedIterator

variable {ι : Type} [StorageIterator ι]

/-- `check_bound`. -/
def checkBound (it : BoundedIterator ι) : BoundedIterator ι :=
  if !isValid it.inner then { it with valid := false }
  else { it with valid := it.endBound.admits (key it.inner).data }

/-- `BoundedIterator::new`. -/
def new (inner : ι) (endBound : Bound) : BoundedIterator ι :=
  ({ inner, endBound, valid := true } : BoundedIterator ι).checkBound

instance : StorageIterator (BoundedIterator ι) where
  key it := key it.inner
  value it := value it.inner
  isValid it := it.valid && isValid it.inner
  next it :=
    match next it.inner with
    | (.error e, inner) => (.error e, { it with inner })
    | (.ok (), inner) => (.ok (), ({ it with inner } : BoundedIterator ι).checkBound)
  remaining it := remaining it.inner

end BoundedIterator
end Crabstash

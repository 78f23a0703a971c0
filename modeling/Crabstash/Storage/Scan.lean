import Crabstash.Storage.Merge
import Crabstash.Storage.Session

/-!
# Scans

`scan` and `scan_range` of `lsm.rs` with the helpers that put their iterator
together, and the `Iterator` instance of the public `DbIterator`.

Two merges of two are nested: the active memtable with the immutable ones, then
level 0 with the deeper levels, and the first of these with the second.  Level 0
is handed to `MergeIterator` newest table first, like the immutable memtables.
-/

namespace Crabstash

open StorageIterator

/-- The sources in memory: the memtable in front of the immutable ones. -/
abbrev MemtableMerge := TwoMergeIterator MemTableIterator (MergeIterator MemTableIterator)

/-- The sources on disk: level 0 in front of the other levels. -/
abbrev SSTableMerge :=
  TwoMergeIterator (MergeIterator SSTableIterator) (MergeIterator SSTableIterator)

/-- `InnerLsmIterator`. -/
abbrev LsmIterator := BoundedIterator (TwoMergeIterator MemtableMerge SSTableMerge)

namespace Bound

/-- The key to seek to. -/
def startKey : Bound → Option Bytes
  | unbounded => none
  | included key => some key
  | excluded key => some key

/-- The key that the scan must not begin with. -/
def excludedKey : Bound → Option Bytes
  | excluded key => some key
  | _ => none

end Bound

namespace Lsm

/-- An iterator over a memtable, moved to the start of the scan. -/
def memtableIterator (m : MemTable) (startKey : Option Bytes) : MemTableIterator :=
  match startKey with
  | none => MemTableIterator.new m
  | some key => (MemTableIterator.new m).seek key

/-- `build_memtable_iterator`; the immutable memtables from the newest. -/
def buildMemtableIterator (s : Lsm) (startKey : Option Bytes) : MemtableMerge :=
  TwoMergeIterator.new (memtableIterator s.memtable startKey)
    (MergeIterator.new (s.immutableMemtables.map fun m => memtableIterator m startKey).reverse)

/-- `open_sst_iterator`, moved to the start of the scan. -/
def openSstIterator (sst : SSTable) (startKey : Option Bytes) : SSTableIterator :=
  match startKey with
  | none => SSTableIterator.new sst
  | some key => (SSTableIterator.new sst).seek key

/-- `build_l0_iterator`, from the table added last. -/
def buildL0Iterator (s : Lsm) (startKey : Option Bytes) : MergeIterator SSTableIterator :=
  MergeIterator.new ((s.levels 0).reverse.map fun sst => openSstIterator sst startKey)

/-- `build_level_iterator`: the levels in order, and the tables of each as they are listed. -/
def buildLevelIterator (s : Lsm) (startKey : Option Bytes) : MergeIterator SSTableIterator :=
  MergeIterator.new
    (((List.range' 1 6).flatMap s.levels).map fun sst => openSstIterator sst startKey)

/-- The loop over an excluded start key. -/
def skipExcluded (excluded : Bytes) : ℕ → LsmIterator → Except Error LsmIterator
  | 0, it => .ok it
  | fuel + 1, it =>
      if isValid it ∧ (key it).data = excluded then
        match next it with
        | (.error e, _) => .error e
        | (.ok (), it) => skipExcluded excluded fuel it
      else .ok it

/-- `build_scan_iterator`: an excluded start is stepped over once the iterator stands on it. -/
def buildScanIterator (s : Lsm) (start last : Bound) : Except Error LsmIterator :=
  let memMerge := s.buildMemtableIterator start.startKey
  let l0Merge := s.buildL0Iterator start.startKey
  let levelsMerge := s.buildLevelIterator start.startKey
  let sstMerge := TwoMergeIterator.new l0Merge levelsMerge
  let fullIter := TwoMergeIterator.new memMerge sstMerge
  let bounded := BoundedIterator.new fullIter last
  match start.excludedKey with
  | none => .ok bounded
  | some excluded => skipExcluded excluded (remaining bounded) bounded

/-- `scan_range`. -/
def scanRange (s : Lsm) (start last : Bound) : Except Error LsmIterator :=
  s.buildScanIterator start last

/-- `scan`. -/
def scan (s : Lsm) : Except Error LsmIterator := s.scanRange .unbounded .unbounded

end Lsm

/-! ## The public iterator -/

namespace DbIterator

variable {ι : Type} [StorageIterator ι]

/-- `Iterator::next` of `DbIterator`.  A tombstone has no value, and `value()?` returns
from the method. -/
def nextPair (it : ι) : Option (Except Error (Bytes × Bytes)) × ι :=
  if !isValid it then (none, it)
  else
    match value it with
    | none => (none, it)
    | some v =>
        match next it with
        | (.error e, it') => (some (.error e), it')
        | (.ok (), it') => (some (.ok ((key it).data, v)), it')

/-- What an iterator yields, one item for each unit of fuel. -/
def collectLoop : ℕ → ι → List (Except Error (Bytes × Bytes))
  | 0, _ => []
  | fuel + 1, it =>
      match nextPair it with
      | (none, _) => []
      | (some result, it') => result :: collectLoop fuel it'

/-- `collect`: the results up to the first `None`. -/
def collect (it : ι) : List (Except Error (Bytes × Bytes)) := collectLoop (remaining it) it

/-- Of what the iterator yields, collecting it sees the pairs before the first tombstone. -/
theorem collect_eq {it : ι} {items : List Item} (h : Yields it items) :
    collect it = (items.takeWhile fun item => item.2.isSome).map fun item =>
      .ok (item.1.data, item.2.getD []) := by
  have hloop : ∀ fuel, items.length ≤ fuel →
      collectLoop fuel it = (items.takeWhile fun item => item.2.isSome).map fun item =>
        .ok (item.1.data, item.2.getD []) := by
    induction h with
    | done hvalid =>
        intro fuel _
        cases fuel with
        | zero => rfl
        | succ fuel => simp [collectLoop, nextPair, hvalid]
    | @step it it' item rest hvalid hitem hremaining hnext hrest ih =>
        intro fuel hfuel
        obtain ⟨fuel, rfl⟩ : ∃ n, fuel = n + 1 := ⟨fuel - 1, by simp at hfuel; omega⟩
        have hkey : key it = item.1 := congrArg Prod.fst hitem
        have hvalue : value it = item.2 := congrArg Prod.snd hitem
        cases hv : item.2 with
        | none => simp [collectLoop, nextPair, hvalid, hvalue, hv]
        | some v =>
            have hrest := ih fuel (by simpa using hfuel)
            simp [collectLoop, nextPair, hvalid, hvalue, hv, hnext, hkey, hrest]
  exact hloop _ h.length_le

end DbIterator
end Crabstash

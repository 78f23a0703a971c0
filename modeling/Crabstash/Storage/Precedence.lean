import Crabstash.Storage.ScanFrom

/-!
# What a merge makes of equal keys

`MergeIterator` goes through the union of its inputs and gives every key data once, at its least
key, which is the version with the largest timestamp (`merges`).

Of several inputs that hold this very key it takes the one with the *largest* index.  `HeapEntry`
is compared for a max-heap: the keys are swapped, so that the least key is on top, but the indices
are not.  `build_l0_iterator` lists the newest table first, and in a table all timestamps are
zero.  So for a key in several tables of level 0 it is the oldest one whose value comes out, and
the values of the newest table come out just when the two agree (`prefersFirst_iff`).
-/

namespace Crabstash

open Run StorageIterator

/-! ## Items by key -/

/-- The value of the first item with exactly this key. -/
def valueOf (key : Key) (items : List Item) : Option (Option Bytes) :=
  (items.find? fun item => decide (item.1 = key)).map Prod.snd

/-- The key is the least of its data among these lists. -/
def LeastKey (lists : List (List Item)) (key : Key) : Prop :=
  (∃ items ∈ lists, ∃ item ∈ items, item.1 = key) ∧
    ∀ items ∈ lists, ∀ item ∈ items, item.1.data = key.data → key ≤ item.1

/-- Every value that came out is that of the first list with its key. -/
def PrefersFirst (lists : List (List Item)) (out : List Item) : Prop :=
  ∀ item ∈ out, lists.findSome? (valueOf item.1) = some item.2

/-- The first and the last of the lists that have a least key have the same value there. -/
def EndsAgree (lists : List (List Item)) : Prop :=
  ∀ key, LeastKey lists key →
    lists.findSome? (valueOf key) = lists.reverse.findSome? (valueOf key)

theorem valueOf_eq_none_iff {key : Key} {items : List Item} :
    valueOf key items = none ↔ ∀ item ∈ items, item.1 ≠ key := by
  simp [valueOf]

/-- In a sorted list the first item of a key data has the least of its keys. -/
theorem Sorted.firstOf_le {items : List Item} (hsorted : Sorted items) {data : Bytes}
    {first other : Item} (hfirst : firstOf data items = some first) (hother : other ∈ items)
    (hdata : other.1.data = data) : first.1 ≤ other.1 := by
  induction items with
  | nil => exact absurd hother List.not_mem_nil
  | cons item rest ih =>
      obtain ⟨hitem, hrest⟩ := List.pairwise_cons.mp hsorted
      by_cases hhead : item.1.data = data
      · have heq : item = first := by simpa [firstOf, hhead] using hfirst
        rw [← heq]
        rcases List.mem_cons.mp hother with rfl | hother
        · exact le_rfl
        · exact hitem other hother
      · have hskip : firstOf data rest = some first := by simpa [firstOf, hhead] using hfirst
        rcases List.mem_cons.mp hother with rfl | hother
        · exact absurd hdata hhead
        · exact ih hrest hskip hother

/-- The first item of a key data is the first of its key. -/
theorem valueOf_of_firstOf {items : List Item} {item : Item}
    (hfirst : firstOf item.1.data items = some item) : valueOf item.1 items = some item.2 := by
  induction items with
  | nil => contradiction
  | cons head rest ih =>
      by_cases hdata : head.1.data = item.1.data
      · have heq : head = item := by simpa [firstOf, hdata] using hfirst
        simp [valueOf, heq]
      · have hskip : firstOf item.1.data rest = some item := by simpa [firstOf, hdata] using hfirst
        have hkey : head.1 ≠ item.1 := fun h => hdata (congrArg Key.data h)
        rw [valueOf, List.find?_cons_of_neg (by simpa using hkey)]
        exact ih hskip

namespace Merged

variable {wins : ℕ → ℕ → Prop} {lists : List (List Item)} {out : List Item}

/-- What comes out is in one of the inputs, and no input has a lesser key for its data. -/
theorem leastKey (h : Merged wins (inputs lists) out) (hsorted : ∀ items ∈ lists, Sorted items)
    {item : Item} (hitem : item ∈ out) :
    (∃ items ∈ lists, item ∈ items) ∧ LeastKey lists item.1 := by
  obtain ⟨i, hfirst, hbest⟩ := h.best item hitem
  obtain ⟨hmem, _⟩ := firstOf_eq_some hfirst
  have hin : inputs lists i ∈ lists := mem_of_inputs_ne_nil (List.ne_nil_of_mem hmem)
  refine ⟨⟨_, hin, hmem⟩, ⟨_, hin, item, hmem, rfl⟩, ?_⟩
  intro items hitems other hother hdata
  obtain ⟨j, hinput⟩ := exists_inputs_eq hitems
  have hsome : (firstOf item.1.data items).isSome := by
    rw [firstOf, List.find?_isSome]
    exact ⟨other, hother, decide_eq_true hdata⟩
  obtain ⟨first, hfirst'⟩ := Option.isSome_iff_exists.mp hsome
  have hle := (hsorted items hitems).firstOf_le hfirst' hother hdata
  rw [← hinput] at hfirst'
  rcases hbest j first hfirst' with hlt | ⟨heq, _⟩
  · exact hlt.le.trans hle
  · rw [heq]
    exact hle

/-- Every least key comes out. -/
theorem exists_mem (h : Merged wins (inputs lists) out) (hsorted : ∀ items ∈ lists, Sorted items)
    {key : Key} (hleast : LeastKey lists key) : ∃ item ∈ out, item.1 = key := by
  obtain ⟨⟨items, hitems, item, hitem, rfl⟩, hle⟩ := hleast
  obtain ⟨i, hinput⟩ := exists_inputs_eq hitems
  obtain ⟨item', hitem', hdata⟩ := h.complete i item (hinput ▸ hitem)
  obtain ⟨⟨items', hitems', hmem'⟩, _, hle'⟩ := h.leastKey hsorted hitem'
  refine ⟨item', hitem', le_antisymm ?_ ?_⟩
  · exact hle' items hitems item hitem hdata.symm
  · exact hle items' hitems' item' hmem' hdata

/-- The value that comes out is that of the last input with the key. -/
theorem value_eq (h : Merged (· ≥ ·) (inputs lists) out)
    (hsorted : ∀ items ∈ lists, Sorted items) {item : Item} (hitem : item ∈ out) :
    lists.reverse.findSome? (valueOf item.1) = some item.2 := by
  obtain ⟨i, hfirst, hbest⟩ := h.best item hitem
  obtain ⟨hmem, _⟩ := firstOf_eq_some hfirst
  have hi : i < lists.length := by
    by_contra hge
    rw [inputs_of_le (not_lt.mp hge)] at hmem
    exact absurd hmem List.not_mem_nil
  have hvalue := valueOf_of_firstOf hfirst
  rw [inputs_of_lt hi] at hvalue
  refine findSome?_reverse (List.getElem?_eq_getElem hi) hvalue ?_
  intro j items hj hsome
  obtain ⟨hlt, rfl⟩ := List.getElem?_eq_some_iff.mp hj
  -- the first item there of the key data has the key, and so the tie counts
  obtain ⟨other, hother, hkey⟩ : ∃ other ∈ lists[j], other.1 = item.1 := by
    by_contra hnone
    push Not at hnone
    exact hsome (valueOf_eq_none_iff.mpr hnone)
  have hfound : (firstOf item.1.data lists[j]).isSome := by
    rw [firstOf, List.find?_isSome]
    exact ⟨other, hother, decide_eq_true (congrArg Key.data hkey)⟩
  obtain ⟨first, hfirst'⟩ := Option.isSome_iff_exists.mp hfound
  have hle : first.1 ≤ item.1 := by
    rw [← hkey]
    exact (hsorted _ (List.getElem_mem hlt)).firstOf_le hfirst' hother (congrArg Key.data hkey)
  rw [← inputs_of_lt hlt] at hfirst'
  rcases hbest j first hfirst' with hless | ⟨_, hge⟩
  · exact absurd hle hless.not_ge
  · exact hge

/-- It is the value of the first input as well just when these two inputs agree. -/
theorem prefersFirst_iff_endsAgree (h : Merged (· ≥ ·) (inputs lists) out)
    (hsorted : ∀ items ∈ lists, Sorted items) :
    PrefersFirst lists out ↔ EndsAgree lists := by
  constructor
  · intro hprefers key hleast
    obtain ⟨item, hitem, rfl⟩ := h.exists_mem hsorted hleast
    rw [hprefers item hitem, h.value_eq hsorted hitem]
  · intro hagree item hitem
    rw [hagree item.1 (h.leastKey hsorted hitem).2, h.value_eq hsorted hitem]

end Merged

namespace MergeIterator

variable {ι : Type} [StorageIterator ι]

/-- **A merge is the union of its inputs**, every key data once and at its newest version.  Every
call of `next` ends without an error, and so do the calls until the iterator is used up. -/
theorem merges {iters : List ι} {lists : List (List Item)}
    (hyields : List.Forall₂ Yields iters lists) (hsorted : ∀ items ∈ lists, Sorted items) :
    ∃ out, Drains (new iters) out ∧ Yields (new iters) out ∧
      (out.Pairwise fun a b => a.1.data < b.1.data) ∧
      (∀ data, (∃ item ∈ out, item.1.data = data) ↔
        ∃ items ∈ lists, ∃ item ∈ items, item.1.data = data) ∧
      ∀ item ∈ out, (∃ items ∈ lists, item ∈ items) ∧
        ∀ items ∈ lists, ∀ other ∈ items, other.1.data = item.1.data →
          item.1 ≤ other.1 ∧ other.1.timestamp ≤ item.1.timestamp := by
  obtain ⟨out, hout, hdrains, hmerged⟩ := exists_merged_new hyields hsorted
  refine ⟨out, hdrains, hout, hmerged.sorted, ?_, ?_⟩
  · intro data
    constructor
    · rintro ⟨item, hitem, hdata⟩
      obtain ⟨⟨items, hitems, hmem⟩, _⟩ := hmerged.leastKey hsorted hitem
      exact ⟨items, hitems, item, hmem, hdata⟩
    · rintro ⟨items, hitems, item, hitem, rfl⟩
      obtain ⟨i, hinput⟩ := exists_inputs_eq hitems
      exact hmerged.complete i item (hinput ▸ hitem)
  · intro item hitem
    obtain ⟨hmem, _, hle⟩ := hmerged.leastKey hsorted hitem
    refine ⟨hmem, ?_⟩
    intro items hitems other hother hdata
    have hleast := hle items hitems other hother hdata
    refine ⟨hleast, ?_⟩
    rcases Key.le_iff.mp hleast with hlt | ⟨_, hts⟩
    · exact absurd hdata hlt.ne'
    · exact hts

/-- Two inputs of which each has a version of the other's first key. -/
def twoVersions : List (List Item) :=
  [[(⟨[1], 2⟩, some [12]), (⟨[1], 1⟩, some [11]), (⟨[3], 1⟩, none)],
    [(⟨[1], 2⟩, some [22]), (⟨[2], 1⟩, some [21])]]

theorem yields_twoVersions : List.Forall₂ Yields
    (twoVersions.map fun items => (⟨items, 0⟩ : MemTableIterator)) twoVersions := by
  rw [List.forall₂_map_left_iff, List.forall₂_same]
  intro items _
  exact MemTableIterator.yields items 0

theorem sorted_twoVersions : ∀ items ∈ twoVersions, Sorted items := by
  unfold Sorted
  decide

theorem merges_twoVersions :
    ∃ out, Drains (new (twoVersions.map fun items => (⟨items, 0⟩ : MemTableIterator))) out ∧
      Yields (new (twoVersions.map fun items => (⟨items, 0⟩ : MemTableIterator))) out ∧
      (out.Pairwise fun a b => a.1.data < b.1.data) ∧
      (∀ data, (∃ item ∈ out, item.1.data = data) ↔
        ∃ items ∈ twoVersions, ∃ item ∈ items, item.1.data = data) ∧
      ∀ item ∈ out, (∃ items ∈ twoVersions, item ∈ items) ∧
        ∀ items ∈ twoVersions, ∀ other ∈ items, other.1.data = item.1.data →
          item.1 ≤ other.1 ∧ other.1.timestamp ≤ item.1.timestamp :=
  merges yields_twoVersions sorted_twoVersions

end MergeIterator

/-! ## Level 0 -/

namespace SSTableIterator

/-- At the timestamp that all entries of a table have, the value of a key is its newest there. -/
theorem valueOf_items (t : SSTable) (data : Bytes) :
    valueOf ⟨data, 0⟩ (items t) = t.newest data := by
  have hsame : (fun e : Entry => decide ((itemOf e).1 = ⟨data, 0⟩)) =
      fun e => decide (e.1 = data) := by
    funext e
    simp [itemOf]
  rw [valueOf, items, List.find?_map, Option.map_map, SSTable.newest]
  show Option.map _ (t.entries.find? fun e => decide ((itemOf e).1 = ⟨data, 0⟩)) = _
  rw [hsame]
  rfl

theorem findSome?_valueOf_items (tables : List SSTable) (data : Bytes) :
    (tables.map items).findSome? (valueOf ⟨data, 0⟩) =
      tables.findSome? fun t => t.newest data := by
  rw [List.findSome?_map]
  refine congrArg (fun f => tables.findSome? f) (funext fun t => ?_)
  exact valueOf_items t data

end SSTableIterator

theorem leastKey_items {tables : List SSTable} {key : Key} :
    LeastKey (tables.map SSTableIterator.items) key ↔
      key.timestamp = 0 ∧ ∃ t ∈ tables, t.Has key.data := by
  constructor
  · rintro ⟨⟨_, hitems, item, hitem, rfl⟩, _⟩
    obtain ⟨t, ht, rfl⟩ := List.mem_map.mp hitems
    obtain ⟨e, he, rfl⟩ := List.mem_map.mp hitem
    exact ⟨rfl, t, ht, e, he, rfl⟩
  · rintro ⟨hts, t, ht, e, he, hdata⟩
    have hkey : (SSTableIterator.itemOf e).1 = key := Key.ext hdata hts.symm
    refine ⟨⟨_, List.mem_map_of_mem ht, _, List.mem_map_of_mem he, hkey⟩, ?_⟩
    intro items hitems item hitem hsame
    obtain ⟨t', _, rfl⟩ := List.mem_map.mp hitems
    obtain ⟨e', _, rfl⟩ := List.mem_map.mp hitem
    exact Key.le_iff.mpr (Or.inr ⟨hsame.symm, Nat.zero_le _⟩)

namespace Lsm

open MergeIterator

/-- Every value that came out is that of the newest table of level 0 with its key. -/
def PrefersNewest (s : Lsm) (out : List Item) : Prop :=
  ∀ item ∈ out, ((s.levels 0).reverse.findSome? fun t => t.newest item.1.data) = some item.2

/-- The newest and the oldest table of level 0 that have a key have the same newest entry for
it. -/
def L0Agrees (s : Lsm) : Prop :=
  ∀ key, ((s.levels 0).reverse.findSome? fun t => t.newest key) =
    (s.levels 0).findSome? fun t => t.newest key

/-- The merge of level 0, with its tables from the newest to the oldest. -/
theorem exists_merged_l0 (s : Lsm) (hsound : ∀ t ∈ s.levels 0, t.Sound) :
    ∃ out, Yields (s.buildL0Iterator none) out ∧
      Merged (· ≥ ·) (inputs ((s.levels 0).reverse.map SSTableIterator.items)) out :=
  exists_merged_tables (fun t ht => hsound t (List.mem_reverse.mp ht)) none

/-- **Which of several equal keys a merge yields.**  It is the value of the first input that has
the key just when the last one has the same; on level 0 these are the newest table and the oldest
one that have it. -/
theorem prefersFirst_iff {ι : Type} [StorageIterator ι] {iters : List ι}
    {lists : List (List Item)} (hyields : List.Forall₂ Yields iters lists)
    (hsorted : ∀ items ∈ lists, Sorted items) (s : Lsm) (hsound : ∀ t ∈ s.levels 0, t.Sound) :
    (∃ out, Yields (MergeIterator.new iters) out ∧ (PrefersFirst lists out ↔ EndsAgree lists)) ∧
    ∃ out, Yields (s.buildL0Iterator none) out ∧ (s.PrefersNewest out ↔ s.L0Agrees) := by
  obtain ⟨out, hout, hmerged⟩ := MergeIterator.yields_new hyields hsorted
  refine ⟨⟨out, hout, hmerged.prefersFirst_iff_endsAgree hsorted⟩, ?_⟩
  obtain ⟨out, hout, hmerged⟩ := s.exists_merged_l0 hsound
  have htables : ∀ items ∈ (s.levels 0).reverse.map SSTableIterator.items, Sorted items := by
    intro items hitems
    obtain ⟨t, ht, rfl⟩ := List.mem_map.mp hitems
    exact SSTableIterator.sorted_items (hsound t (List.mem_reverse.mp ht))
  have hiff := hmerged.prefersFirst_iff_endsAgree htables
  -- a table has no timestamps, so the keys of its items have none
  have hzero : ∀ item ∈ out, item.1 = ⟨item.1.data, 0⟩ := by
    intro item hitem
    exact Key.ext rfl (leastKey_items.mp (hmerged.leastKey htables hitem).2).1
  refine ⟨out, hout, ?_⟩
  constructor
  · intro hprefers key
    by_cases hhas : ∃ t ∈ s.levels 0, t.Has key
    · obtain ⟨t, ht, hkey⟩ := hhas
      have hleast : LeastKey ((s.levels 0).reverse.map SSTableIterator.items) ⟨key, 0⟩ :=
        leastKey_items.mpr ⟨rfl, t, List.mem_reverse.mpr ht, hkey⟩
      have hagree := hiff.mp (fun item hitem => by
        rw [hzero item hitem, SSTableIterator.findSome?_valueOf_items]
        exact hprefers item hitem) ⟨key, 0⟩ hleast
      rwa [← List.map_reverse, List.reverse_reverse, SSTableIterator.findSome?_valueOf_items,
        SSTableIterator.findSome?_valueOf_items] at hagree
    -- a key that no table has has no newest value either way
    · push Not at hhas
      have hnone : ∀ t ∈ s.levels 0, t.newest key = none :=
        fun t ht => SSTable.newest_eq_none (hhas t ht)
      rw [List.findSome?_eq_none_iff.mpr hnone, List.findSome?_eq_none_iff]
      intro t ht
      exact hnone t (List.mem_reverse.mp ht)
  · intro hagree item hitem
    have hvalue := hmerged.value_eq htables hitem
    rw [hzero item hitem, ← List.map_reverse, List.reverse_reverse,
      SSTableIterator.findSome?_valueOf_items] at hvalue
    rw [hagree item.1.data, hvalue]

theorem prefersFirst_iff_twoVersions :
    (∃ out, Yields (MergeIterator.new
        (twoVersions.map fun items => (⟨items, 0⟩ : MemTableIterator))) out ∧
      (PrefersFirst twoVersions out ↔ EndsAgree twoVersions)) ∧
    ∃ out, Yields ((run step (openDir 1 Dir.empty)
        [.put [1] [10], .put [1] [11]]).buildL0Iterator none) out ∧
      ((run step (openDir 1 Dir.empty) [.put [1] [10], .put [1] [11]]).PrefersNewest out ↔
        (run step (openDir 1 Dir.empty) [.put [1] [10], .put [1] [11]]).L0Agrees) :=
  prefersFirst_iff yields_twoVersions sorted_twoVersions _ (oneSession_run 1 _).tables

/-- A key is written twice, with a flush after each: of the two tables of level 0 the merge takes
the value of the older one. -/
theorem not_prefersNewest_overwritten :
    ¬ ∃ out, Yields ((run step (openDir 1 Dir.empty)
        [.put [1] [10], .put [1] [11]]).buildL0Iterator none) out ∧
      (run step (openDir 1 Dir.empty) [.put [1] [10], .put [1] [11]]).PrefersNewest out := by
  rintro ⟨out, hyields, hprefers⟩
  have hvalid : isValid ((run step (openDir 1 Dir.empty)
      [.put [1] [10], .put [1] [11]]).buildL0Iterator none) = true := by decide +kernel
  cases out with
  | nil =>
      rw [hyields.isValid_eq] at hvalid
      contradiction
  | cons item rest =>
      have hkey : item.1 = ⟨[1], 0⟩ := by
        rw [← hyields.key_eq]
        decide +kernel
      have hvalue : item.2 = some [10] := by
        rw [← hyields.value_eq]
        decide +kernel
      have hnewest := hprefers item (List.mem_cons_self ..)
      rw [hkey, hvalue] at hnewest
      revert hnewest
      decide +kernel

end Lsm
end Crabstash

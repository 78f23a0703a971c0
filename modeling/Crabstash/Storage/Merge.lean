import Mathlib.Algebra.Order.BigOperators.Group.List
import Mathlib.Algebra.Order.Group.Nat
import Crabstash.Storage.Iterator

/-!
# What the merges yield

For iterators that yield lists of items sorted by key:

* `MergeIterator` yields every key data of its inputs once, in increasing order,
  with the item of the least key among the inputs; between equal keys the input
  with the *largest* index wins (`Merged`, `yields_new`);
* `TwoMergeIterator` yields `twoMerge` of the two lists, in which an item of the
  second list is left out when an item of the first with the same key data comes
  up together with it;
* `BoundedIterator` yields the items up to the first one beyond its bound.

The heap of a merge is described by what is left of each input, a function
`left` from indices to lists (`Feeds`), so that the order of the heap's elements
never matters.
-/

namespace Crabstash

open StorageIterator

/-- The items are in key order. -/
def Sorted (items : List Item) : Prop := items.Pairwise fun a b => a.1 ≤ b.1

/-- Key data strictly increases: every key has one item. -/
def Distinct (items : List Item) : Prop := items.Pairwise fun a b => a.1.data < b.1.data

/-- The first item with the given key data. -/
def firstOf (data : Bytes) (items : List Item) : Option Item :=
  items.find? fun item => decide (item.1.data = data)

/-- What is left when the leading items with the given key data are gone. -/
def dropKey (data : Bytes) (items : List Item) : List Item :=
  items.dropWhile fun item => decide (item.1.data = data)

theorem firstOf_eq_some {data : Bytes} {items : List Item} {item : Item}
    (h : firstOf data items = some item) : item ∈ items ∧ item.1.data = data :=
  ⟨List.mem_of_find?_eq_some h, by simpa using List.find?_some h⟩

theorem dropKey_cons (data : Bytes) (item : Item) (rest : List Item) :
    dropKey data (item :: rest) =
      if item.1.data = data then dropKey data rest else item :: rest := by
  simp [dropKey, List.dropWhile_cons]

theorem firstOf_dropKey {data data' : Bytes} (hne : data' ≠ data) (items : List Item) :
    firstOf data' (dropKey data items) = firstOf data' items := by
  induction items with
  | nil => rfl
  | cons item rest ih =>
      rw [dropKey_cons]
      split
      · next hdata =>
          have hskip : ¬ item.1.data = data' := fun h => hne (h.symm.trans hdata)
          rw [ih, firstOf, firstOf, List.find?_cons, decide_eq_false hskip]
      · rfl

theorem length_dropKey_le (data : Bytes) (items : List Item) :
    (dropKey data items).length ≤ items.length :=
  (List.dropWhile_sublist _).length_le

theorem Sorted.dropKey {items : List Item} (h : Sorted items) (data : Bytes) :
    Sorted (dropKey data items) :=
  h.sublist (List.dropWhile_sublist _)

theorem mem_dropKey {data : Bytes} {items : List Item} {item : Item} (hitem : item ∈ items)
    (hne : item.1.data ≠ data) : item ∈ dropKey data items := by
  induction items with
  | nil => exact hitem
  | cons first rest ih =>
      rw [dropKey_cons]
      split
      · next hdata =>
          rcases List.mem_cons.mp hitem with rfl | hitem
          · exact absurd hdata hne
          · exact ih hitem
      · exact hitem

/-- In a sorted list whose keys are not below `data`, dropping `data` leaves larger keys. -/
theorem lt_of_mem_dropKey {data : Bytes} {items : List Item} (hsorted : Sorted items)
    (hle : ∀ item ∈ items, data ≤ item.1.data) {item : Item} (hitem : item ∈ dropKey data items) :
    data < item.1.data := by
  induction items with
  | nil => exact absurd hitem List.not_mem_nil
  | cons first rest ih =>
      have hrest := List.pairwise_cons.mp hsorted
      rw [dropKey_cons] at hitem
      split at hitem
      · exact ih hrest.2 (fun item h => hle item (List.mem_cons_of_mem _ h)) hitem
      · next hne =>
          have hfirst := lt_of_le_of_ne (hle first (List.mem_cons_self ..)) (Ne.symm hne)
          rcases List.mem_cons.mp hitem with rfl | hitem
          · exact hfirst
          · exact hfirst.trans_le (Key.data_le_of_le (hrest.1 item hitem))

/-! ## Tables as inputs -/

namespace SSTableIterator

/-- The items of a table, as a merge sees them. -/
def items (t : SSTable) : List Item := t.entries.map itemOf

theorem firstOf_items (t : SSTable) (key : Bytes) :
    firstOf key (items t) =
      (t.entries.find? fun e => decide (e.1 = key)).map itemOf :=
  List.find?_map ..

theorem sorted_items {t : SSTable} (hsound : t.Sound) :
    Sorted (items t) := by
  unfold Sorted items
  rw [List.pairwise_map]
  refine hsound.sorted.imp fun {a b} hle => ?_
  rcases hle.lt_or_eq with hlt | heq
  · exact Key.le_iff.mpr (Or.inl hlt)
  · exact Key.le_iff.mpr (Or.inr ⟨heq, le_rfl⟩)

end SSTableIterator

/-! ## What is left of the inputs -/

/-- The inputs of a merge by index; an index without an input has an empty list. -/
abbrev Left := ℕ → List Item

namespace Left

/-- The number of items left at the given indices. -/
def load (indices : List ℕ) (left : Left) : ℕ := (indices.map fun i => (left i).length).sum

/-- The indices include all that have something left. -/
def Covers (indices : List ℕ) (left : Left) : Prop := ∀ i, left i ≠ [] → i ∈ indices

theorem load_le {indices : List ℕ} {left left' : Left}
    (hle : ∀ i, (left i).length ≤ (left' i).length) : load indices left ≤ load indices left' := by
  induction indices with
  | nil => exact le_rfl
  | cons i rest ih =>
      simp only [load, List.map_cons, List.sum_cons] at ih ⊢
      have := hle i
      omega

theorem load_lt {indices : List ℕ} {left left' : Left}
    (hle : ∀ i, (left i).length ≤ (left' i).length) {j : ℕ} (hj : j ∈ indices)
    (hlt : (left j).length < (left' j).length) : load indices left < load indices left' := by
  induction indices with
  | nil => exact absurd hj List.not_mem_nil
  | cons i rest ih =>
      have hrest : load rest left ≤ load rest left' := load_le hle
      simp only [load, List.map_cons, List.sum_cons] at ih hrest ⊢
      have := hle i
      rcases List.mem_cons.mp hj with rfl | hj
      · omega
      · have := ih hj
        omega

theorem eq_nil_of_load_eq_zero {indices : List ℕ} {left : Left} (hcovers : Covers indices left)
    (hload : load indices left = 0) (i : ℕ) : left i = [] := by
  by_contra hne
  have hpos : 0 < (left i).length := List.length_pos_of_ne_nil hne
  have hle : (left i).length ≤ load indices left := by
    refine List.single_le_sum (fun _ _ => Nat.zero_le _) _ ?_
    exact List.mem_map.mpr ⟨i, hcovers i hne, rfl⟩
  omega

theorem dropKey_of_nil {left : Left} (hnil : ∀ i, left i = []) (data : Bytes) :
    (fun i => dropKey data (left i)) = left := by
  funext i
  rw [hnil i]
  rfl

end Left

/-- The output of a merge: increasing key data, all those of the inputs, each with the
first item of an input that has the least key.  Between inputs with equal keys `wins`
decides. -/
structure Merged (wins : ℕ → ℕ → Prop) (left : Left) (out : List Item) : Prop where
  sorted : Distinct out
  best : ∀ item ∈ out, ∃ i, firstOf item.1.data (left i) = some item ∧
    ∀ j other, firstOf item.1.data (left j) = some other →
      item.1 < other.1 ∨ item.1 = other.1 ∧ wins i j
  complete : ∀ i, ∀ item ∈ left i, ∃ item' ∈ out, item'.1.data = item.1.data

variable {wins : ℕ → ℕ → Prop}

theorem Merged.nil {left : Left} (hnil : ∀ i, left i = []) : Merged wins left [] where
  sorted := List.Pairwise.nil
  best := fun _ h => absurd h List.not_mem_nil
  complete := by
    intro i item hitem
    rw [hnil i] at hitem
    exact absurd hitem List.not_mem_nil

/-- What remains after the first output item has larger key data. -/
theorem Merged.lt_of_dropped {left : Left} (hsorted : ∀ i, Sorted (left i)) {item : Item}
    (hbest : ∀ i other tail, left i = other :: tail → item.1 ≤ other.1) {out : List Item}
    (hout : Merged wins (fun i => dropKey item.1.data (left i)) out) :
    ∀ item' ∈ out, item.1.data < item'.1.data := by
  intro item' hitem'
  obtain ⟨i, hfirst, _⟩ := hout.best item' hitem'
  obtain ⟨hmem, _⟩ := firstOf_eq_some hfirst
  refine lt_of_mem_dropKey (hsorted i) ?_ hmem
  intro other hother
  cases hi : left i with
  | nil => exact absurd (hi ▸ hother) List.not_mem_nil
  | cons first tail =>
      have hfirst : item.1.data ≤ first.1.data := Key.data_le_of_le (hbest i first tail hi)
      rw [hi] at hother
      rcases List.mem_cons.mp hother with rfl | hother
      · exact hfirst
      · have htail := List.pairwise_cons.mp (hi ▸ hsorted i)
        exact hfirst.trans (Key.data_le_of_le (htail.1 other hother))

/-- The first output item of a merge and the output for what is left make its output. -/
theorem Merged.cons {left : Left} (hsorted : ∀ i, Sorted (left i)) {index : ℕ} {item : Item}
    {rest : List Item} (hleft : left index = item :: rest)
    (hbest : ∀ i other tail, left i = other :: tail →
      item.1 < other.1 ∨ item.1 = other.1 ∧ wins index i)
    {out : List Item} (hout : Merged wins (fun i => dropKey item.1.data (left i)) out) :
    Merged wins left (item :: out) := by
  -- every later item has another key
  have hlater : ∀ item' ∈ out, item.1.data < item'.1.data := by
    refine hout.lt_of_dropped hsorted ?_
    intro i other tail hi
    rcases hbest i other tail hi with hlt | ⟨heq, _⟩
    · exact hlt.le
    · exact heq.le
  refine ⟨List.pairwise_cons.mpr ⟨hlater, hout.sorted⟩, ?_, ?_⟩
  · intro item' hitem'
    rcases List.mem_cons.mp hitem' with rfl | hitem'
    · refine ⟨index, ?_, ?_⟩
      · rw [hleft, firstOf, List.find?_cons, decide_eq_true rfl]
      · intro j other hother
        obtain ⟨hmem, hdata⟩ := firstOf_eq_some hother
        cases hj : left j with
        | nil => exact absurd (hj ▸ hmem) List.not_mem_nil
        | cons first tail =>
            have hfirst := hbest j first tail hj
            by_cases heq : first.1.data = item'.1.data
            · have hsame : first = other := by
                rw [hj, firstOf, List.find?_cons, decide_eq_true heq] at hother
                exact Option.some.inj hother
              exact hsame ▸ hfirst
            · -- then the first item is past the key, and so is every other
              have hlt : item'.1.data < first.1.data := by
                rcases hfirst with hlt | ⟨hkey, _⟩
                · exact lt_of_le_of_ne (Key.data_le_of_le hlt.le) (Ne.symm heq)
                · exact absurd (congrArg Key.data hkey).symm heq
              rw [hj] at hmem
              rcases List.mem_cons.mp hmem with rfl | hmem
              · exact absurd hdata heq
              · have htail := List.pairwise_cons.mp (hj ▸ hsorted j)
                have hle := Key.data_le_of_le (htail.1 other hmem)
                exact absurd hdata (hlt.trans_le hle).ne'
    · obtain ⟨i, hfirst, hothers⟩ := hout.best item' hitem'
      have hne : item'.1.data ≠ item.1.data := (hlater item' hitem').ne'
      rw [firstOf_dropKey hne] at hfirst
      refine ⟨i, hfirst, ?_⟩
      intro j other hother
      rw [← firstOf_dropKey hne] at hother
      exact hothers j other hother
  · intro i other hother
    by_cases hdata : other.1.data = item.1.data
    · exact ⟨item, List.mem_cons_self .., hdata.symm⟩
    · obtain ⟨item', hitem', heq⟩ := hout.complete i other (mem_dropKey hother hdata)
      exact ⟨item', List.mem_cons_of_mem _ hitem', heq⟩

/-- The inputs of a merge, by index. -/
def inputs (lists : List (List Item)) : Left := fun i => lists.getD i []

theorem inputs_of_lt {lists : List (List Item)} {i : ℕ} (hi : i < lists.length) :
    inputs lists i = lists[i] := by
  simp [inputs, hi]

theorem inputs_of_le {lists : List (List Item)} {i : ℕ} (hi : lists.length ≤ i) :
    inputs lists i = [] := by
  simp [inputs, hi]

theorem mem_of_inputs_ne_nil {lists : List (List Item)} {i : ℕ} (hne : inputs lists i ≠ []) :
    inputs lists i ∈ lists := by
  have hi : i < lists.length := by
    by_contra hge
    exact hne (inputs_of_le (not_lt.mp hge))
  rw [inputs_of_lt hi]
  exact List.getElem_mem hi

theorem exists_inputs_eq {lists : List (List Item)} {items : List Item} (hitems : items ∈ lists) :
    ∃ i, inputs lists i = items := by
  obtain ⟨i, hi, hget⟩ := List.mem_iff_getElem.mp hitems
  exact ⟨i, (inputs_of_lt hi).trans hget⟩

/-- What comes out of a merge is in one of its inputs. -/
theorem Merged.exists_input {lists : List (List Item)} {out : List Item}
    (h : Merged wins (inputs lists) out) {item : Item} (hitem : item ∈ out) :
    ∃ items ∈ lists, item ∈ items := by
  obtain ⟨i, hfirst, _⟩ := h.best item hitem
  obtain ⟨hmem, _⟩ := firstOf_eq_some hfirst
  exact ⟨_, mem_of_inputs_ne_nil (List.ne_nil_of_mem hmem), hmem⟩

theorem inputs_sorted {lists : List (List Item)} (hsorted : ∀ items ∈ lists, Sorted items) (i : ℕ) :
    Sorted (inputs lists i) := by
  by_cases hnil : inputs lists i = []
  · rw [hnil]
    exact List.Pairwise.nil
  · exact hsorted _ (mem_of_inputs_ne_nil hnil)

namespace MergeIterator

variable {ι : Type} [StorageIterator ι]

/-- The heap holds an iterator for every input that is not used up. -/
structure Feeds (heap : List (HeapEntry ι)) (left : Left) : Prop where
  nodup : (heap.map HeapEntry.index).Nodup
  yields : ∀ e ∈ heap, left e.index ≠ [] ∧ Yields e.iter (left e.index)
  complete : ∀ i, left i ≠ [] → ∃ e ∈ heap, e.index = i

theorem Feeds.covers {heap : List (HeapEntry ι)} {left : Left} (h : Feeds heap left) :
    Left.Covers (heap.map HeapEntry.index) left := by
  intro i hi
  obtain ⟨e, he, rfl⟩ := h.complete i hi
  exact List.mem_map_of_mem he

theorem Feeds.load_le {heap : List (HeapEntry ι)} {left : Left} (h : Feeds heap left) :
    Left.load (heap.map HeapEntry.index) left ≤ heapRemaining heap := by
  unfold Left.load heapRemaining
  rw [List.map_map]
  refine List.sum_le_sum fun e he => ?_
  exact (h.yields e he).2.length_le

theorem Feeds.nil_iff {heap : List (HeapEntry ι)} {left : Left} (h : Feeds heap left) :
    heap = [] ↔ ∀ i, left i = [] := by
  constructor
  · intro hnil i
    by_contra hne
    obtain ⟨e, he, _⟩ := h.complete i hne
    rw [hnil] at he
    exact absurd he List.not_mem_nil
  · intro hnil
    cases hheap : heap with
    | nil => rfl
    | cons e rest =>
        have he : e ∈ heap := hheap ▸ List.mem_cons_self ..
        exact absurd (hnil e.index) (h.yields e he).1

/-- Taking an entry out of the heap and putting its iterator back after some steps. -/
theorem Feeds.replace {heap others : List (HeapEntry ι)} {left : Left} (h : Feeds heap left)
    {top : HeapEntry ι} (hperm : heap.Perm (top :: others)) {iter : ι} {items : List Item}
    (hyields : Yields iter items) :
    Feeds (pushValid others { top with iter }) (Function.update left top.index items) := by
  have hnodup : ((top :: others).map HeapEntry.index).Nodup :=
    (hperm.map HeapEntry.index).nodup_iff.mp h.nodup
  rw [List.map_cons, List.nodup_cons] at hnodup
  have hother : ∀ e ∈ others, e.index ≠ top.index := by
    intro e he heq
    exact hnodup.1 (heq ▸ List.mem_map_of_mem he)
  have hkept : ∀ e ∈ others, Function.update left top.index items e.index ≠ [] ∧
      Yields e.iter (Function.update left top.index items e.index) := by
    intro e he
    rw [Function.update_of_ne (hother e he)]
    exact h.yields e (hperm.mem_iff.mpr (List.mem_cons_of_mem _ he))
  unfold pushValid
  rw [hyields.isValid_eq]
  cases items with
  | nil =>
      simp only [List.isEmpty_nil, Bool.not_true, Bool.false_eq_true, if_false]
      -- the input is used up, and its iterator does not go back
      refine ⟨hnodup.2, hkept, ?_⟩
      intro i hi
      by_cases hi' : i = top.index
      · rw [hi', Function.update_self] at hi
        exact absurd rfl hi
      · rw [Function.update_of_ne hi'] at hi
        obtain ⟨e, he, rfl⟩ := h.complete i hi
        rcases List.mem_cons.mp (hperm.mem_iff.mp he) with rfl | he
        · exact absurd rfl hi'
        · exact ⟨e, he, rfl⟩
  | cons item rest =>
      simp only [List.isEmpty_cons, Bool.not_false, if_true]
      refine ⟨List.nodup_cons.mpr hnodup, ?_, ?_⟩
      · intro e he
        rcases List.mem_cons.mp he with rfl | he
        · rw [Function.update_self]
          exact ⟨List.cons_ne_nil _ _, hyields⟩
        · exact hkept e he
      · intro i hi
        by_cases hi' : i = top.index
        · exact ⟨_, List.mem_cons_self .., hi'.symm⟩
        · rw [Function.update_of_ne hi'] at hi
          obtain ⟨e, he, rfl⟩ := h.complete i hi
          rcases List.mem_cons.mp (hperm.mem_iff.mp he) with rfl | he
          · exact absurd rfl hi'
          · exact ⟨e, List.mem_cons_of_mem _ he, rfl⟩

/-! ## The order of the heap -/

/-- The rank of a heap entry: the lower the key the higher, then by index. -/
def rank (e : HeapEntry ι) : Keyᵒᵈ ×ₗ ℕ := toLex (OrderDual.toDual (key e.iter), e.index)

theorem lt_iff_rank (a b : HeapEntry ι) : HeapEntry.lt a b = true ↔ rank a < rank b := by
  have hrank : rank a < rank b ↔
      key b.iter < key a.iter ∨ key a.iter = key b.iter ∧ a.index < b.index :=
    Prod.Lex.toLex_lt_toLex
  rw [hrank, HeapEntry.lt, beq_iff_eq, HeapEntry.cmp]
  have hcompares := Key.cmp_compares (key b.iter) (key a.iter)
  cases hcmp : (key b.iter).cmp (key a.iter) with
  | lt =>
      rw [hcmp] at hcompares
      exact ⟨fun _ => Or.inl hcompares, fun _ => rfl⟩
  | eq =>
      rw [hcmp] at hcompares
      have heq : key b.iter = key a.iter := hcompares
      simp [heq, compare_lt_iff_lt]
  | gt =>
      rw [hcmp] at hcompares
      have hgt : key a.iter < key b.iter := hcompares
      constructor
      · intro h
        contradiction
      · intro h
        rcases h with h | ⟨h, _⟩
        · exact absurd h hgt.asymm
        · exact absurd h hgt.ne

/-- The entry on top of the heap is at least as good as the first item of every input. -/
theorem Feeds.top_best {heap others : List (HeapEntry ι)} {left : Left} (h : Feeds heap left)
    {top : HeapEntry ι}
    (hpop : PriorityQueue.popMax HeapEntry.lt heap = some (top, others)) {i : ℕ} {item : Item}
    {rest : List Item} (hleft : left i = item :: rest) :
    key top.iter < item.1 ∨ key top.iter = item.1 ∧ i ≤ top.index := by
  obtain ⟨hperm, hle⟩ := PriorityQueue.popMax_eq_some lt_iff_rank hpop
  obtain ⟨e, he, rfl⟩ := h.complete i (hleft ▸ List.cons_ne_nil _ _)
  have hkey : key e.iter = item.1 := (hleft ▸ (h.yields e he).2).key_eq
  rw [← hkey]
  rcases List.mem_cons.mp (hperm.mem_iff.mp he) with rfl | he
  · exact Or.inr ⟨rfl, le_rfl⟩
  · have hrank : toLex (OrderDual.toDual (key e.iter), e.index) ≤
        toLex (OrderDual.toDual (key top.iter), top.index) := hle e he
    rcases Prod.Lex.toLex_le_toLex.mp hrank with hlt | ⟨heq, hindex⟩
    · exact Or.inl (OrderDual.toDual_lt_toDual.mp hlt)
    · exact Or.inr ⟨(OrderDual.toDual.injective heq).symm, hindex⟩

theorem Feeds.top_data_le {heap others : List (HeapEntry ι)} {left : Left} (h : Feeds heap left)
    (hsorted : ∀ i, Sorted (left i)) {top : HeapEntry ι}
    (hpop : PriorityQueue.popMax HeapEntry.lt heap = some (top, others)) (i : ℕ) :
    ∀ item ∈ left i, (key top.iter).data ≤ item.1.data := by
  intro item hitem
  cases hleft : left i with
  | nil => exact absurd (hleft ▸ hitem) List.not_mem_nil
  | cons first rest =>
      have hfirst : (key top.iter).data ≤ first.1.data := by
        rcases h.top_best hpop hleft with hlt | ⟨heq, _⟩
        · exact Key.data_le_of_le hlt.le
        · rw [heq]
      rw [hleft] at hitem
      rcases List.mem_cons.mp hitem with rfl | hitem
      · exact hfirst
      · have hrest := List.pairwise_cons.mp (hleft ▸ hsorted i)
        exact hfirst.trans (Key.data_le_of_le (hrest.1 item hitem))

/-- The entry on top stands on the first item of its input. -/
theorem Feeds.exists_top {heap others : List (HeapEntry ι)} {left : Left} (h : Feeds heap left)
    {top : HeapEntry ι} (hperm : heap.Perm (top :: others)) :
    ∃ item rest, left top.index = item :: rest ∧ key top.iter = item.1 ∧
      Yields top.iter (item :: rest) := by
  obtain ⟨hne, hyields⟩ := h.yields top (hperm.mem_iff.mpr (List.mem_cons_self ..))
  obtain ⟨item, rest, hleft⟩ := List.exists_cons_of_ne_nil hne
  rw [hleft] at hyields
  exact ⟨item, rest, hleft, hyields.key_eq, hyields⟩

/-! ## The steps of a merge -/

theorem sorted_update {left : Left} (hsorted : ∀ i, Sorted (left i)) {index : ℕ}
    {items : List Item} (hitems : Sorted items) :
    ∀ i, Sorted (Function.update left index items i) := by
  intro i
  by_cases hi : i = index
  · rw [hi, Function.update_self]
    exact hitems
  · rw [Function.update_of_ne hi]
    exact hsorted i

/-- The loop of `next` run to its own end, in so many rounds and without an error. -/
inductive Skips (data : Bytes) : ℕ → List (HeapEntry ι) → List (HeapEntry ι) → Prop
  | empty {heap : List (HeapEntry ι)}
      (hpop : PriorityQueue.popMax HeapEntry.lt heap = none) : Skips data 0 heap heap
  | stop {heap others : List (HeapEntry ι)} {top : HeapEntry ι}
      (hpop : PriorityQueue.popMax HeapEntry.lt heap = some (top, others))
      (hdata : (key top.iter).data ≠ data) : Skips data 0 heap heap
  | skip {rounds : ℕ} {heap heap' others : List (HeapEntry ι)} {top : HeapEntry ι} {iter : ι}
      (hpop : PriorityQueue.popMax HeapEntry.lt heap = some (top, others))
      (hdata : (key top.iter).data = data) (hnext : next top.iter = (.ok (), iter))
      (hrest : Skips data rounds (pushValid others { top with iter }) heap') :
      Skips data (rounds + 1) heap heap'

/-- With fuel for its rounds the loop comes to its end. -/
theorem Skips.skipDuplicates_eq {data : Bytes} {rounds fuel : ℕ}
    {heap heap' : List (HeapEntry ι)} (h : Skips data rounds heap heap') (hfuel : rounds ≤ fuel) :
    MergeIterator.skipDuplicates data fuel heap = (.ok (), heap') := by
  induction h generalizing fuel with
  | empty hpop =>
      cases fuel with
      | zero => rfl
      | succ fuel => simp only [MergeIterator.skipDuplicates, hpop]
  | stop hpop hdata =>
      cases fuel with
      | zero => rfl
      | succ fuel => simp only [MergeIterator.skipDuplicates, hpop, if_pos hdata]
  | skip hpop hdata hnext hrest ih =>
      obtain ⟨fuel, rfl⟩ : ∃ n, fuel = n + 1 := ⟨fuel - 1, by omega⟩
      have hend := ih (Nat.le_of_succ_le_succ hfuel)
      simp only [MergeIterator.skipDuplicates, hpop, hdata, ne_eq, not_true_eq_false, if_false,
        hnext, hend]

/-- The loop of `next` ends, and takes the key data off the front of every input. -/
theorem Feeds.skips {heap : List (HeapEntry ι)} {left : Left} (h : Feeds heap left)
    (hsorted : ∀ i, Sorted (left i)) {data : Bytes}
    (hle : ∀ i, ∀ item ∈ left i, data ≤ item.1.data) {indices : List ℕ}
    (hcovers : Left.Covers indices left) {n : ℕ} (hn : Left.load indices left ≤ n) :
    ∃ rounds heap', rounds ≤ n ∧ Skips data rounds heap heap' ∧
      Feeds heap' fun i => dropKey data (left i) := by
  induction n generalizing heap left with
  | zero =>
      have hnil := Left.eq_nil_of_load_eq_zero hcovers (Nat.le_zero.mp hn)
      have hempty : heap = [] := h.nil_iff.mpr hnil
      refine ⟨0, heap, le_rfl, Skips.empty (by rw [hempty]; rfl), ?_⟩
      rw [Left.dropKey_of_nil hnil]
      exact h
  | succ n ih =>
      cases hpop : PriorityQueue.popMax HeapEntry.lt heap with
      | none =>
          have hnil := h.nil_iff.mp (PriorityQueue.popMax_eq_none hpop)
          refine ⟨0, heap, Nat.zero_le _, Skips.empty hpop, ?_⟩
          rw [Left.dropKey_of_nil hnil]
          exact h
      | some popped =>
          obtain ⟨top, others⟩ := popped
          obtain ⟨hperm, _⟩ := PriorityQueue.popMax_eq_some lt_iff_rank hpop
          obtain ⟨item, rest, hleft, hkey, hyields⟩ := h.exists_top hperm
          by_cases hdata : (key top.iter).data = data
          · obtain ⟨iter, hnext, hrest⟩ := hyields.next_eq
            have hitem : item.1.data = data := by rw [← hkey, hdata]
            -- the input moves on, so there is less left to take
            have hshorter : Left.load indices (Function.update left top.index rest) <
                Left.load indices left := by
              refine Left.load_lt (fun i => ?_)
                (hcovers top.index (hleft ▸ List.cons_ne_nil _ _)) ?_
              · by_cases hi : i = top.index
                · rw [hi, Function.update_self, hleft]
                  exact Nat.le_succ _
                · rw [Function.update_of_ne hi]
              · rw [Function.update_self, hleft]
                exact Nat.lt_succ_self _
            -- what is taken had the key data that is dropped
            have hdrop : (fun i => dropKey data (Function.update left top.index rest i)) =
                fun i => dropKey data (left i) := by
              funext i
              by_cases hi : i = top.index
              · rw [hi, Function.update_self, hleft, dropKey_cons, if_pos hitem]
              · rw [Function.update_of_ne hi]
            have hsortedRest : Sorted rest := (List.pairwise_cons.mp (hleft ▸ hsorted top.index)).2
            have hleRest : ∀ i, ∀ other ∈ Function.update left top.index rest i,
                data ≤ other.1.data := by
              intro i other hother
              by_cases hi : i = top.index
              · rw [hi, Function.update_self] at hother
                exact hle top.index other (hleft ▸ List.mem_cons_of_mem _ hother)
              · rw [Function.update_of_ne hi] at hother
                exact hle i other hother
            have hcoversRest : Left.Covers indices (Function.update left top.index rest) := by
              intro i hi
              by_cases hi' : i = top.index
              · rw [hi']
                exact hcovers top.index (hleft ▸ List.cons_ne_nil _ _)
              · rw [Function.update_of_ne hi'] at hi
                exact hcovers i hi
            obtain ⟨rounds, heap', hrounds, hskips, hfeeds⟩ := ih (h.replace hperm hrest)
              (sorted_update hsorted hsortedRest) hleRest hcoversRest (by omega)
            exact ⟨rounds + 1, heap', Nat.succ_le_succ hrounds, Skips.skip hpop hdata hnext hskips,
              hdrop ▸ hfeeds⟩
          · -- the least key is past `data`, and with it every other
            refine ⟨0, heap, Nat.zero_le _, Skips.stop hpop hdata, ?_⟩
            have hsame : (fun i => dropKey data (left i)) = left := by
              funext i
              cases hi : left i with
              | nil => rfl
              | cons first tail =>
                  have htop := h.top_data_le hsorted hpop i first (hi ▸ List.mem_cons_self ..)
                  have hge : data ≤ (key top.iter).data := by
                    rw [hkey]
                    exact hle top.index item (hleft ▸ List.mem_cons_self ..)
                  have hne : ¬ first.1.data = data := by
                    intro heq
                    exact hdata (le_antisymm (heq ▸ htop) hge)
                  rw [dropKey_cons, if_neg hne]
            rw [hsame]
            exact h

/-- A call of `next` that succeeds, with its loop run to the end, from the heap and the current
entry to the heap that the next current entry is taken from. -/
def Moves (heap : List (HeapEntry ι)) (entry : HeapEntry ι) (heap' : List (HeapEntry ι)) : Prop :=
  ∃ iter rounds, next entry.iter = (.ok (), iter) ∧
    Skips (key entry.iter).data rounds (pushValid heap { entry with iter }) heap'

/-- A step of the merge, from the heap as it was before the current entry was taken out. -/
theorem Feeds.advance {heap others : List (HeapEntry ι)} {left : Left} (h : Feeds heap left)
    (hsorted : ∀ i, Sorted (left i)) {top : HeapEntry ι}
    (hpop : PriorityQueue.popMax HeapEntry.lt heap = some (top, others)) :
    ∃ heap', Moves others top heap' ∧
      MergeIterator.advance ⟨others, some top⟩ = (.ok (), popCurrent heap') ∧
      Feeds heap' fun i => dropKey (key top.iter).data (left i) := by
  obtain ⟨hperm, _⟩ := PriorityQueue.popMax_eq_some lt_iff_rank hpop
  obtain ⟨item, rest, hleft, hkey, hyields⟩ := h.exists_top hperm
  obtain ⟨iter, hnext, hrest⟩ := hyields.next_eq
  have hfeeds := h.replace hperm hrest
  have hsortedRest : Sorted rest := (List.pairwise_cons.mp (hleft ▸ hsorted top.index)).2
  have hle : ∀ i, ∀ other ∈ Function.update left top.index rest i,
      (key top.iter).data ≤ other.1.data := by
    intro i other hother
    by_cases hi : i = top.index
    · rw [hi, Function.update_self] at hother
      exact h.top_data_le hsorted hpop top.index other (hleft ▸ List.mem_cons_of_mem _ hother)
    · rw [Function.update_of_ne hi] at hother
      exact h.top_data_le hsorted hpop i other hother
  have hdrop : (fun i => dropKey (key top.iter).data (Function.update left top.index rest i)) =
      fun i => dropKey (key top.iter).data (left i) := by
    funext i
    by_cases hi : i = top.index
    · rw [hi, Function.update_self, hleft, dropKey_cons, if_pos (congrArg Key.data hkey).symm]
    · rw [Function.update_of_ne hi]
  obtain ⟨rounds, heap', hrounds, hskips, hfeeds'⟩ := hfeeds.skips
    (sorted_update hsorted hsortedRest) hle hfeeds.covers hfeeds.load_le
  refine ⟨heap', ⟨iter, rounds, hnext, hskips⟩, ?_, hdrop ▸ hfeeds'⟩
  simp only [MergeIterator.advance, hnext, hskips.skipDuplicates_eq hrounds]

/-- The calls of `next` until the iterator is used up, each with its loop run to the end. -/
inductive Drains : MergeIterator ι → List Item → Prop
  | done {it : MergeIterator ι} (hvalid : isValid it = false) : Drains it []
  | step {heap heap' : List (HeapEntry ι)} {entry : HeapEntry ι} {out : List Item}
      (hmoves : Moves heap entry heap') (hrest : Drains (popCurrent heap') out) :
      Drains ⟨heap, some entry⟩ ((key entry.iter, value entry.iter) :: out)

/-- What the merge yields, from its heap; the induction is on the number of items left. -/
theorem Feeds.yields_popCurrent {heap : List (HeapEntry ι)} {left : Left} (h : Feeds heap left)
    (hsorted : ∀ i, Sorted (left i)) {indices : List ℕ} (hcovers : Left.Covers indices left)
    {n : ℕ} (hn : Left.load indices left ≤ n) :
    ∃ out, Yields (popCurrent heap) out ∧ Drains (popCurrent heap) out ∧
      Merged (· ≥ ·) left out ∧
      ∀ indices', Left.Covers indices' left → out.length ≤ Left.load indices' left := by
  induction n generalizing heap left with
  | zero =>
      have hnil := Left.eq_nil_of_load_eq_zero hcovers (Nat.le_zero.mp hn)
      rw [h.nil_iff.mpr hnil]
      exact ⟨[], Yields.done rfl, Drains.done rfl, Merged.nil hnil, fun _ _ => Nat.zero_le _⟩
  | succ n ih =>
      unfold popCurrent
      cases hpop : PriorityQueue.popMax HeapEntry.lt heap with
      | none =>
          have hnil := h.nil_iff.mp (PriorityQueue.popMax_eq_none hpop)
          exact ⟨[], Yields.done rfl, Drains.done rfl, Merged.nil hnil, fun _ _ => Nat.zero_le _⟩
      | some popped =>
          obtain ⟨top, others⟩ := popped
          obtain ⟨hperm, _⟩ := PriorityQueue.popMax_eq_some lt_iff_rank hpop
          obtain ⟨item, rest, hleft, hkey, hyields⟩ := h.exists_top hperm
          obtain ⟨heap', hmoves, hadvance, hfeeds⟩ := h.advance hsorted hpop
          have htop : ∀ i other tail, left i = other :: tail →
              item.1 < other.1 ∨ item.1 = other.1 ∧ i ≤ top.index := by
            intro i other tail hi
            rw [← hkey]
            exact h.top_best hpop hi
          -- the step takes at least the first item of the input on top
          have hshorter : ∀ indices', Left.Covers indices' left →
              Left.load indices' (fun i => dropKey (key top.iter).data (left i)) <
                Left.load indices' left := by
            intro indices' hcovers'
            refine Left.load_lt (fun i => length_dropKey_le _ _)
              (hcovers' top.index (hleft ▸ List.cons_ne_nil _ _)) ?_
            rw [hleft, dropKey_cons, if_pos (congrArg Key.data hkey).symm]
            exact Nat.lt_succ_of_le (length_dropKey_le _ _)
          have hstill : ∀ indices', Left.Covers indices' left → Left.Covers indices'
              fun i => dropKey (key top.iter).data (left i) := by
            intro indices' hcovers' i hi
            refine hcovers' i ?_
            intro hnil
            have hdropped : dropKey (key top.iter).data (left i) ≠ [] := hi
            rw [hnil] at hdropped
            exact hdropped rfl
          have hless := hshorter indices hcovers
          obtain ⟨out, hout, hdrains, hmerged, hlength⟩ := ih hfeeds
            (fun i => (hsorted i).dropKey _) (hstill indices hcovers) (by omega)
          have hitem : (key top.iter, value top.iter) = item := Prod.ext hkey hyields.value_eq
          change ∃ out, Yields (⟨others, some top⟩ : MergeIterator ι) out ∧ _
          refine ⟨item :: out, ?_, ?_, ?_, ?_⟩
          · refine Yields.step rfl ?_ ?_ hadvance hout
            · exact hitem
            · have hbound := hlength _ (hstill _ h.covers)
              have hless := hshorter _ h.covers
              have hload : Left.load (heap.map HeapEntry.index) left ≤ heapRemaining heap :=
                h.load_le
              have hsum : heapRemaining heap = remaining top.iter + heapRemaining others := by
                unfold heapRemaining
                rw [(hperm.map fun e => remaining e.iter).sum_eq, List.map_cons, List.sum_cons]
              have hremaining : remaining (⟨others, some top⟩ : MergeIterator ι) =
                  heapRemaining others + remaining top.iter := rfl
              omega
          · rw [← hitem]
            exact Drains.step hmoves hdrains
          · rw [hkey] at hmerged
            exact Merged.cons hsorted hleft htop hmerged
          · intro indices' hcovers'
            have hbound := hlength _ (hstill _ hcovers')
            have hless := hshorter _ hcovers'
            rw [List.length_cons]
            omega

theorem feeds_new {iters : List ι} {lists : List (List Item)}
    (hyields : List.Forall₂ Yields iters lists) :
    Feeds ((iters.zipIdx.map fun (iter, index) => ⟨iter, index⟩).filter
      fun e : HeapEntry ι => isValid e.iter) (inputs lists) := by
  have hlen := hyields.length_eq
  -- each iterator yields the list of its own index
  have hat : ∀ (i : ℕ) (hi : i < iters.length), Yields iters[i] (inputs lists i) := by
    intro i hi
    have hi' : i < lists.length := hlen ▸ hi
    rw [inputs_of_lt hi']
    exact (List.forall₂_iff_get.mp hyields).2 i hi hi'
  refine ⟨?_, ?_, ?_⟩
  · have hindices : ((iters.zipIdx.map fun (iter, index) =>
        (⟨iter, index⟩ : HeapEntry ι)).map HeapEntry.index) = List.range iters.length := by
      rw [List.map_map, List.range_eq_range', ← List.zipIdx_map_snd 0 iters]
      rfl
    have hsub := (List.filter_sublist (p := fun e : HeapEntry ι => isValid e.iter)
      (l := iters.zipIdx.map fun (iter, index) => ⟨iter, index⟩)).map HeapEntry.index
    rw [hindices] at hsub
    exact List.nodup_range.sublist hsub
  -- only valid iterators come into the heap
  · intro e he
    obtain ⟨hmem, hvalid⟩ := List.mem_filter.mp he
    obtain ⟨⟨iter, index⟩, hzip, rfl⟩ := List.mem_map.mp hmem
    obtain ⟨hi, hiter⟩ := List.getElem?_eq_some_iff.mp (List.mem_zipIdx_iff_getElem?.mp hzip)
    simp only at hi hiter hvalid ⊢
    have hyield := hat index hi
    rw [hiter] at hyield
    refine ⟨?_, hyield⟩
    intro hnil
    rw [hyield.isValid_eq, hnil] at hvalid
    contradiction
  -- and one with something left to yield is valid
  · intro i hne
    have hi : i < iters.length := by
      by_contra hge
      have hge : lists.length ≤ i := hlen ▸ not_lt.mp hge
      exact hne (inputs_of_le hge)
    refine ⟨⟨iters[i], i⟩, List.mem_filter.mpr ⟨?_, ?_⟩, rfl⟩
    · exact List.mem_map.mpr ⟨(iters[i], i),
        List.mem_zipIdx_iff_getElem?.mpr (List.getElem?_eq_getElem hi), rfl⟩
    · simp only
      rw [(hat i hi).isValid_eq]
      simpa using hne

theorem exists_merged_new {iters : List ι} {lists : List (List Item)}
    (hyields : List.Forall₂ Yields iters lists) (hsorted : ∀ items ∈ lists, Sorted items) :
    ∃ out, Yields (new iters) out ∧ Drains (new iters) out ∧
      Merged (· ≥ ·) (inputs lists) out := by
  have hfeeds := feeds_new hyields
  obtain ⟨out, hout, hdrains, hmerged, _⟩ :=
    hfeeds.yields_popCurrent (inputs_sorted hsorted) hfeeds.covers le_rfl
  exact ⟨out, hout, hdrains, hmerged⟩

/-- A merge yields the merged list of its inputs. -/
theorem yields_new {iters : List ι} {lists : List (List Item)}
    (hyields : List.Forall₂ Yields iters lists) (hsorted : ∀ items ∈ lists, Sorted items) :
    ∃ out, Yields (new iters) out ∧ Merged (· ≥ ·) (inputs lists) out := by
  obtain ⟨out, hout, _, hmerged⟩ := exists_merged_new hyields hsorted
  exact ⟨out, hout, hmerged⟩

end MergeIterator

/-! ## The merge of two lists -/

/-- What `TwoMergeIterator` makes of the items of its two sides. -/
def twoMerge : List Item → List Item → List Item
  | [], bs => bs
  | as, [] => as
  | a :: as, b :: bs =>
      if a.1 ≤ b.1 then
        if a.1.data = b.1.data then a :: twoMerge as bs else a :: twoMerge as (b :: bs)
      else b :: twoMerge (a :: as) bs
termination_by as bs => as.length + bs.length

theorem length_twoMerge_le (as bs : List Item) :
    (twoMerge as bs).length ≤ as.length + bs.length := by
  fun_induction twoMerge as bs with
  | case1 bs => simp
  | case2 as => simp
  | case3 a as b bs hle hdata ih =>
      simp only [List.length_cons]
      omega
  | case4 a as b bs hle hdata ih =>
      simp only [List.length_cons] at ih ⊢
      omega
  | case5 a as b bs hle ih =>
      simp only [List.length_cons] at ih ⊢
      omega

@[simp] theorem twoMerge_nil_left (bs : List Item) : twoMerge [] bs = bs := by
  rw [twoMerge]

@[simp] theorem twoMerge_nil_right (as : List Item) : twoMerge as [] = as := by
  cases as <;> simp [twoMerge]

theorem mem_or_mem_of_mem_twoMerge {as bs : List Item} {item : Item}
    (hmem : item ∈ twoMerge as bs) : item ∈ as ∨ item ∈ bs := by
  fun_induction twoMerge as bs with
  | case1 bs => exact Or.inr hmem
  | case2 as => exact Or.inl hmem
  | case3 a as b bs hle hdata ih =>
      rcases List.mem_cons.mp hmem with rfl | hmem
      · exact Or.inl (List.mem_cons_self ..)
      · exact (ih hmem).imp (List.mem_cons_of_mem _) (List.mem_cons_of_mem _)
  | case4 a as b bs hle hdata ih =>
      rcases List.mem_cons.mp hmem with rfl | hmem
      · exact Or.inl (List.mem_cons_self ..)
      · exact (ih hmem).imp_left (List.mem_cons_of_mem _)
  | case5 a as b bs hle ih =>
      rcases List.mem_cons.mp hmem with rfl | hmem
      · exact Or.inr (List.mem_cons_self ..)
      · exact (ih hmem).imp_right (List.mem_cons_of_mem _)

/-- What is less than the first key of a list is less than all of them. -/
theorem data_lt_of_distinct {a b : Item} {bs : List Item} (hbs : Distinct (b :: bs))
    (hlt : a.1.data < b.1.data) : ∀ item ∈ b :: bs, a.1.data < item.1.data := by
  intro item hitem
  rcases List.mem_cons.mp hitem with rfl | hitem
  · exact hlt
  · exact hlt.trans ((List.pairwise_cons.mp hbs).1 item hitem)

theorem data_lt_of_pairwise {a b : Item} {as : List Item}
    (has : (a :: as).Pairwise fun a b => a.1 < b.1) (hlt : b.1.data < a.1.data) :
    ∀ item ∈ a :: as, b.1.data < item.1.data := by
  intro item hitem
  rcases List.mem_cons.mp hitem with rfl | hitem
  · exact hlt
  · exact hlt.trans_le (Key.data_le_of_le ((List.pairwise_cons.mp has).1 item hitem).le)

section

variable {as bs : List Item}

/-- On a tie the second list has the greater key, so that its first item comes before the other
list only with a lesser one. -/
theorem data_lt_of_not_le {a b : Item}
    (htie : ∀ a' ∈ a :: as, ∀ b' ∈ b :: bs, a'.1.data = b'.1.data → a'.1 ≤ b'.1)
    (hle : ¬ a.1 ≤ b.1) : b.1.data < a.1.data := by
  apply lt_of_le_of_ne (Key.data_le_of_le (not_le.mp hle).le)
  intro heq
  exact hle (htie a (List.mem_cons_self ..) b (List.mem_cons_self ..) heq.symm)

theorem pairwise_twoMerge (has : as.Pairwise fun a b => a.1 < b.1) (hbs : Distinct bs)
    (htie : ∀ a ∈ as, ∀ b ∈ bs, a.1.data = b.1.data → a.1 ≤ b.1) :
    (twoMerge as bs).Pairwise fun a b => a.1 < b.1 := by
  fun_induction twoMerge as bs with
  | case1 bs =>
      apply List.Pairwise.imp _ hbs
      intro a b hlt
      exact Key.lt_of_data_lt hlt
  | case2 as => exact has
  | case3 a as b bs hle hdata ih =>
      -- the equal key of `b` is skipped, and what is behind it is greater
      have hasRest := List.pairwise_cons.mp has
      have hbsRest := List.pairwise_cons.mp hbs
      apply List.pairwise_cons.mpr
      constructor
      · intro item hitem
        rcases mem_or_mem_of_mem_twoMerge hitem with hitem | hitem
        · exact hasRest.1 item hitem
        · exact Key.lt_of_data_lt (hdata.trans_lt (hbsRest.1 item hitem))
      · exact ih hasRest.2 hbsRest.2 fun a' ha' b' hb' =>
          htie a' (List.mem_cons_of_mem _ ha') b' (List.mem_cons_of_mem _ hb')
  | case4 a as b bs hle hdata ih =>
      have hasRest := List.pairwise_cons.mp has
      have hbelow := data_lt_of_distinct hbs (lt_of_le_of_ne (Key.data_le_of_le hle) hdata)
      apply List.pairwise_cons.mpr
      constructor
      · intro item hitem
        rcases mem_or_mem_of_mem_twoMerge hitem with hitem | hitem
        · exact hasRest.1 item hitem
        · exact Key.lt_of_data_lt (hbelow item hitem)
      · exact ih hasRest.2 hbs fun a' ha' => htie a' (List.mem_cons_of_mem _ ha')
  | case5 a as b bs hle ih =>
      have hbsRest := List.pairwise_cons.mp hbs
      -- `b` is below the first key of `as`, so it cannot tie with any
      have hbelow := data_lt_of_pairwise has (data_lt_of_not_le htie hle)
      apply List.pairwise_cons.mpr
      constructor
      · intro item hitem
        rcases mem_or_mem_of_mem_twoMerge hitem with hitem | hitem
        · exact Key.lt_of_data_lt (hbelow item hitem)
        · exact Key.lt_of_data_lt (hbsRest.1 item hitem)
      · exact ih has hbsRest.2 fun a' ha' b' hb' => htie a' ha' b' (List.mem_cons_of_mem _ hb')

theorem mem_twoMerge (has : as.Pairwise fun a b => a.1 < b.1) (hbs : Distinct bs)
    (htie : ∀ a ∈ as, ∀ b ∈ bs, a.1.data = b.1.data → a.1 ≤ b.1) (item : Item) :
    item ∈ twoMerge as bs ↔ item ∈ as ∨ item ∈ bs ∧ ∀ a ∈ as, a.1.data ≠ item.1.data := by
  fun_induction twoMerge as bs with
  | case1 bs => simp
  | case2 as => simp
  | case3 a as b bs hle hdata ih =>
      have hbsRest := List.pairwise_cons.mp hbs
      have hmem := ih (List.pairwise_cons.mp has).2 hbsRest.2 fun a' ha' b' hb' =>
        htie a' (List.mem_cons_of_mem _ ha') b' (List.mem_cons_of_mem _ hb')
      rw [List.mem_cons, hmem, List.mem_cons, List.mem_cons, List.forall_mem_cons]
      constructor
      · rintro (rfl | hitem | ⟨hitem, hne⟩)
        · exact Or.inl (Or.inl rfl)
        · exact Or.inl (Or.inr hitem)
        · exact Or.inr ⟨Or.inr hitem, (hdata.trans_lt (hbsRest.1 item hitem)).ne, hne⟩
      · -- the first item of the second list has the key of `a`
        rintro ((rfl | hitem) | ⟨rfl | hitem, hne, hnes⟩)
        · exact Or.inl rfl
        · exact Or.inr (Or.inl hitem)
        · exact absurd hdata hne
        · exact Or.inr (Or.inr ⟨hitem, hnes⟩)
  | case4 a as b bs hle hdata ih =>
      have hbelow := data_lt_of_distinct hbs (lt_of_le_of_ne (Key.data_le_of_le hle) hdata)
      have hmem := ih (List.pairwise_cons.mp has).2 hbs fun a' ha' =>
        htie a' (List.mem_cons_of_mem _ ha')
      rw [List.mem_cons, hmem, List.forall_mem_cons, List.mem_cons (l := as), or_assoc]
      refine or_congr_right (or_congr_right (and_congr_right fun hitem => ?_))
      exact ⟨fun hne => ⟨(hbelow item hitem).ne, hne⟩, And.right⟩
  | case5 a as b bs hle ih =>
      -- `b` is below all keys of `as`
      have hbelow := data_lt_of_pairwise has (data_lt_of_not_le htie hle)
      have hmem := ih has (List.pairwise_cons.mp hbs).2 fun a' ha' b' hb' =>
        htie a' ha' b' (List.mem_cons_of_mem _ hb')
      rw [List.mem_cons, hmem, List.mem_cons (l := bs)]
      constructor
      · rintro (rfl | hitem | ⟨hitem, hne⟩)
        · exact Or.inr ⟨Or.inl rfl, fun a' ha' => (hbelow a' ha').ne'⟩
        · exact Or.inl hitem
        · exact Or.inr ⟨Or.inr hitem, hne⟩
      · rintro (hitem | ⟨rfl | hitem, hne⟩)
        · exact Or.inr (Or.inl hitem)
        · exact Or.inl rfl
        · exact Or.inr (Or.inr ⟨hitem, hne⟩)

/-- Where the second list has one item a key, and the first list has the lesser key on a
tie, the merge has the items of the first list and the other keys of the second. -/
theorem twoMerge_spec (has : as.Pairwise fun a b => a.1 < b.1) (hbs : Distinct bs)
    (htie : ∀ a ∈ as, ∀ b ∈ bs, a.1.data = b.1.data → a.1 ≤ b.1) :
    ((twoMerge as bs).Pairwise fun a b => a.1 < b.1) ∧ ∀ item, item ∈ twoMerge as bs ↔
      item ∈ as ∨ item ∈ bs ∧ ∀ a ∈ as, a.1.data ≠ item.1.data :=
  ⟨pairwise_twoMerge has hbs htie, mem_twoMerge has hbs htie⟩

end

namespace TwoMergeIterator

variable {α β : Type} [StorageIterator α] [StorageIterator β]

theorem cmp_ne_gt_iff {a b : Key} : (a.cmp b != .gt) = true ↔ a ≤ b := by
  have hcompares := Key.cmp_compares a b
  cases hcmp : a.cmp b with
  | lt =>
      rw [hcmp] at hcompares
      have hlt : a < b := hcompares
      simp [hlt.le]
  | eq =>
      rw [hcmp] at hcompares
      have heq : a = b := hcompares
      simp [heq]
  | gt =>
      rw [hcmp] at hcompares
      have hgt : b < a := hcompares
      simp [hgt]

theorem yields_stepB {a : α} {b : β} {y : Item} {bs rest : List Item}
    (hchoose : chooseA a b = false) (hb : Yields b (y :: bs))
    (hlength : rest.length < remaining a + remaining b)
    (hrest : ∀ b' : β, Yields b' bs → Yields (new a b') rest) : Yields (new a b) (y :: rest) := by
  obtain ⟨b', hnext, hb'⟩ := hb.next_eq
  refine Yields.step ?_ ?_ hlength ?_ (hrest b' hb')
  · simp [new, isValid, hb.isValid_eq]
  · simp [new, key, value, hchoose, hb.key_eq, hb.value_eq]
  · simp [new, next, advance, hchoose, hnext]

theorem yields_stepA {a : α} {b b' : β} {x : Item} {as rest : List Item}
    (hchoose : chooseA a b = true) (ha : Yields a (x :: as))
    (hlength : rest.length < remaining a + remaining b)
    (hskip : (if isValid b && (key a).data == (key b).data then next b else (.ok (), b)) =
      (.ok (), b'))
    (hrest : ∀ a' : α, Yields a' as → Yields (new a' b') rest) : Yields (new a b) (x :: rest) := by
  obtain ⟨a', hnext, ha'⟩ := ha.next_eq
  refine Yields.step ?_ ?_ hlength ?_ (hrest a' ha')
  · simp [new, isValid, ha.isValid_eq]
  · simp [new, key, value, hchoose, ha.key_eq, ha.value_eq]
  · simp only [new, next, advance, hchoose, if_true, hskip, hnext]

/-- The merge of two iterators yields the merge of what they yield. -/
theorem yields_new {a : α} {b : β} {as bs : List Item} (ha : Yields a as) (hb : Yields b bs) :
    Yields (new a b) (twoMerge as bs) := by
  have hla := ha.length_le
  have hlb := hb.length_le
  fun_induction twoMerge as bs generalizing a b with
  | case1 bs =>
      -- only the second side is left
      have hchoose : chooseA a b = false := by simp [chooseA, ha.isValid_eq]
      induction bs generalizing b with
      | nil =>
          refine Yields.done ?_
          simp [new, isValid, ha.isValid_eq, hb.isValid_eq]
      | cons y bs ih =>
          simp only [List.length_cons] at hlb
          refine yields_stepB hchoose hb (by omega) fun b' hb' => ?_
          refine ih hb' hb'.length_le ?_
          simp [chooseA, ha.isValid_eq]
  | case2 as hne =>
      -- only the first side is left
      induction as generalizing a with
      | nil => exact absurd rfl hne
      | cons x as ih =>
          simp only [List.length_cons] at hla
          have hchoose : chooseA a b = true := by simp [chooseA, ha.isValid_eq, hb.isValid_eq]
          have hskip : (if isValid b && (key a).data == (key b).data then next b
              else (.ok (), b)) = (Except.ok (), b) := by simp [hb.isValid_eq]
          refine yields_stepA hchoose ha (by omega) hskip fun a' ha' => ?_
          cases as with
          | nil =>
              refine Yields.done ?_
              simp [new, isValid, ha'.isValid_eq, hb.isValid_eq]
          | cons x' as => exact ih (List.cons_ne_nil _ _) ha' ha'.length_le
  | case3 x as y bs hle hdata ih =>
      have hchoose : chooseA a b = true := by
        simp [chooseA, ha.isValid_eq, hb.isValid_eq, ha.key_eq, hb.key_eq, cmp_ne_gt_iff.mpr hle]
      obtain ⟨b', hnext, hb'⟩ := hb.next_eq
      have hskip : (if isValid b && (key a).data == (key b).data then next b
          else (.ok (), b)) = (Except.ok (), b') := by
        simp [hb.isValid_eq, ha.key_eq, hb.key_eq, hdata, hnext]
      have hlength := length_twoMerge_le as bs
      simp only [List.length_cons] at hla hlb
      exact yields_stepA hchoose ha (by omega) hskip fun a' ha' =>
        ih ha' hb' ha'.length_le hb'.length_le
  | case4 x as y bs hle hdata ih =>
      have hchoose : chooseA a b = true := by
        simp [chooseA, ha.isValid_eq, hb.isValid_eq, ha.key_eq, hb.key_eq, cmp_ne_gt_iff.mpr hle]
      have hskip : (if isValid b && (key a).data == (key b).data then next b
          else (.ok (), b)) = (Except.ok (), b) := by
        simp [ha.key_eq, hb.key_eq, hdata]
      have hlength := length_twoMerge_le as (y :: bs)
      simp only [List.length_cons] at hla hlb hlength
      exact yields_stepA hchoose ha (by omega) hskip fun a' ha' =>
        ih ha' hb ha'.length_le hb.length_le
  | case5 x as y bs hle ih =>
      have hchoose : chooseA a b = false := by
        have hgt : (x.1.cmp y.1 != .gt) = false := by
          simpa using mt cmp_ne_gt_iff.mp hle
        simp [chooseA, ha.isValid_eq, hb.isValid_eq, ha.key_eq, hb.key_eq, hgt]
      have hlength := length_twoMerge_le (x :: as) bs
      simp only [List.length_cons] at hla hlb hlength
      exact yields_stepB hchoose hb (by omega) fun b' hb' =>
        ih ha hb' ha.length_le hb'.length_le

end TwoMergeIterator

/-! ## The cut at an upper bound -/

namespace BoundedIterator

variable {ι : Type} [StorageIterator ι]

theorem yields_new {inner : ι} {items : List Item} (h : Yields inner items) (endBound : Bound) :
    Yields (new inner endBound) (items.takeWhile fun item => endBound.admits item.1.data) := by
  induction h with
  | done hvalid =>
      refine Yields.done ?_
      simp [new, checkBound, isValid, hvalid]
  | @step it it' item rest hvalid hitem hremaining hnext hrest ih =>
      have hkey : key it = item.1 := congrArg Prod.fst hitem
      rw [List.takeWhile_cons]
      cases hadmits : endBound.admits item.1.data with
      | false =>
          refine Yields.done ?_
          simp [new, checkBound, isValid, hvalid, hkey, hadmits]
      | true =>
          have hnew : new it endBound = { inner := it, endBound, valid := true } := by
            simp [new, checkBound, hvalid, hkey, hadmits]
          simp only [if_true]
          rw [hnew]
          refine Yields.step ?_ hitem ?_ ?_ ih
          · simp [isValid, hvalid]
          · have hle := (List.takeWhile_sublist (l := rest)
              fun item => endBound.admits item.1.data).length_le
            exact lt_of_le_of_lt hle hremaining
          · simp [next, hnext, new, checkBound]

end BoundedIterator
end Crabstash

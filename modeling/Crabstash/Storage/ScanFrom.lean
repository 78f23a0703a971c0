import Mathlib.Data.List.MinMax
import Mathlib.Data.List.Pairwise
import Mathlib.Data.List.TakeWhile
import Crabstash.Storage.Scan
import Crabstash.Storage.Seek

/-!
# Scans with bounds

What a scan goes through in one session, for every pair of bounds.

The merges do not see the older versions of a key that the iterators below them have left out
or drop themselves, so for each key only the version that a scan meets first matters later
(`firstMet`): that of the memtable, if it is there, and otherwise that of the *oldest* table which
has the key, for the merge of level 0 breaks ties in favour of the largest index.  A seek to the
start of the scan changes which versions there are of the start key alone.

`firstOf_scanned` says that the bounds leave these first versions as they are.
-/

namespace Crabstash

open Run StorageIterator

/-- What a scan from `startKey` has of a memtable. -/
def MemTable.scanItems (m : MemTable) : Option Bytes → List Item
  | none => m.iter
  | some target => m.itemsFrom target

/-- What a scan from `startKey` has of a table. -/
def SSTable.scanItems (t : SSTable) : Option Bytes → List Item
  | none => SSTableIterator.items t
  | some target => (t.entriesFrom target).map SSTableIterator.itemOf

/-- The scan begins at or below the key. -/
def Bound.admitsFrom : Bound → Bytes → Bool
  | unbounded, _ => true
  | included first, data => decide (first ≤ data)
  | excluded first, data => decide (first < data)

/-- The key is within the bounds. -/
def Within (start last : Bound) (key : Bytes) : Prop :=
  start.admitsFrom key = true ∧ last.admits key = true

instance (start last : Bound) (key : Bytes) : Decidable (Within start last key) :=
  inferInstanceAs (Decidable (_ ∧ _))

/-! ## Memtables and tables -/

theorem MemTable.sorted_scanItems (m : MemTable) (startKey : Option Bytes) :
    (m.scanItems startKey).Pairwise fun a b => a.1 < b.1 := by
  cases startKey with
  | none => exact m.map.sorted
  | some target => exact m.map.sorted.filter _

theorem SSTable.Sound.sorted_scanItems {t : SSTable} (h : t.Sound) (startKey : Option Bytes) :
    Sorted (t.scanItems startKey) := by
  cases startKey with
  | none => exact SSTableIterator.sorted_items h
  | some target =>
      refine List.pairwise_map.mpr ((h.entriesFrom target).1.imp fun {a b} hle => ?_)
      rcases hle.lt_or_eq with hlt | heq
      · exact Key.le_iff.mpr (Or.inl hlt)
      · exact Key.le_iff.mpr (Or.inr ⟨heq, le_rfl⟩)

theorem SSTable.timestamp_of_mem_scanItems {t : SSTable} {startKey : Option Bytes} {item : Item}
    (hitem : item ∈ t.scanItems startKey) : item.1.timestamp = 0 := by
  cases startKey with
  | none =>
      obtain ⟨e, _, rfl⟩ := List.mem_map.mp hitem
      rfl
  | some target =>
      obtain ⟨e, _, rfl⟩ := List.mem_map.mp hitem
      rfl

/-- Nothing is below the start. -/
theorem MemTable.le_of_mem_scanItems {m : MemTable} {target : Bytes} {item : Item}
    (hitem : item ∈ m.scanItems (some target)) : target ≤ item.1.data := by
  rcases of_decide_eq_true (List.mem_filter.mp hitem).2 with hlt | ⟨heq, _⟩
  · exact hlt.le
  · exact heq.ge

theorem SSTable.Sound.le_of_mem_scanItems {t : SSTable} (h : t.Sound) {target : Bytes}
    {item : Item} (hitem : item ∈ t.scanItems (some target)) : target ≤ item.1.data := by
  obtain ⟨e, he, rfl⟩ := List.mem_map.mp hitem
  exact ((h.entriesFrom target).2 e he).2

namespace Lsm

theorem yields_memtableIterator (m : MemTable) (startKey : Option Bytes) :
    Yields (memtableIterator m startKey) (m.scanItems startKey) := by
  cases startKey with
  | none => exact MemTableIterator.yields_new m
  | some target => exact MemTableIterator.yields_seek m target

theorem yields_openSstIterator {t : SSTable} (h : t.Sound) (startKey : Option Bytes) :
    Yields (openSstIterator t startKey) (t.scanItems startKey) := by
  cases startKey with
  | none => exact SSTableIterator.yields_new h.holds
  | some target =>
      have htable : (SSTableIterator.new t).table = t := SSTableIterator.table_new t
      have hempty : (SSTableIterator.new t).table.blocks = [] →
          (SSTableIterator.new t).blockData = [] := by
        rw [htable]
        exact SSTableIterator.blockData_new h.holds
      have hyields := SSTableIterator.yields_seek (htable.symm ▸ h.holds) h.sorted hempty target
      rw [htable] at hyields
      exact hyields

/-- The merge of iterators over tables. -/
theorem exists_merged_tables {tables : List SSTable} (hsound : ∀ t ∈ tables, t.Sound)
    (startKey : Option Bytes) : ∃ out,
    Yields (MergeIterator.new (tables.map fun t => openSstIterator t startKey)) out ∧
    Merged (· ≥ ·) (inputs (tables.map fun t => t.scanItems startKey)) out := by
  apply MergeIterator.yields_new
  · rw [List.forall₂_map_left_iff, List.forall₂_map_right_iff, List.forall₂_same]
    exact fun t ht => yields_openSstIterator (hsound t ht) startKey
  · intro items hitems
    obtain ⟨t, ht, rfl⟩ := List.mem_map.mp hitems
    exact (hsound t ht).sorted_scanItems startKey

/-! ## The states of one session -/

/-- What holds of every state in a session that began with an empty directory. -/
structure OneSession (s : Lsm) : Prop where
  immutableMemtables : s.immutableMemtables = []
  deeper : ∀ level, level ≠ 0 → s.levels level = []
  tables : ∀ t ∈ s.levels 0, t.Sound
  below : s.Below s.nextTs

theorem oneSession_openDir (memtableSize : ℕ) : (openDir memtableSize Dir.empty).OneSession where
  immutableMemtables := rfl
  deeper := fun _ _ => rfl
  tables := by
    intro t ht
    exact absurd ht List.not_mem_nil
  below := by
    intro e he
    exact absurd he List.not_mem_nil

theorem OneSession.logged {s : Lsm} (h : s.OneSession) (op : Op) : (s.logged op).OneSession where
  immutableMemtables := (immutableMemtables_writes _ _ _).trans h.immutableMemtables
  deeper := by
    intro level hlevel
    rw [Lsm.logged, levels_writes]
    exact h.deeper level hlevel
  tables := by
    intro t ht
    rw [Lsm.logged, levels_writes] at ht
    exact h.tables t ht
  below := by
    have hbelow : (s.advance op.operations.length).Below s.nextTs := h.below
    intro e he
    have hlt := hbelow.writes op.operations e he
    rw [Lsm.logged, nextTs_writes]
    exact hlt

theorem OneSession.rotate {s : Lsm} (h : s.OneSession) : s.rotate.OneSession where
  immutableMemtables := h.immutableMemtables
  deeper := by
    intro level hlevel
    rw [levels_rotate, Function.update_of_ne hlevel]
    exact h.deeper level hlevel
  tables := by
    intro t ht
    rw [levels_rotate, Function.update_self] at ht
    rcases List.mem_append.mp ht with ht | ht
    · exact h.tables t ht
    · rw [List.mem_singleton.mp ht]
      exact (holds_nextTable s).sound (flushed_sorted s.memtable)
  below := by
    intro e he
    exact absurd he List.not_mem_nil

theorem oneSession_run (memtableSize : ℕ) (ops : List Op) :
    (run step (openDir memtableSize Dir.empty) ops).OneSession := by
  apply Run.invariant OneSession
  · intro s op hs
    rw [step_eq]
    split
    · exact (hs.logged op).rotate
    · exact hs.logged op
  · exact oneSession_openDir memtableSize

/-- The merge of the memtable and the tables, from the start of a scan on. -/
theorem OneSession.yields_merge {s : Lsm} (h : s.OneSession) (startKey : Option Bytes) :
    ∃ tables, Yields (TwoMergeIterator.new (s.buildMemtableIterator startKey)
        (TwoMergeIterator.new (s.buildL0Iterator startKey) (s.buildLevelIterator startKey)))
        (twoMerge (s.memtable.scanItems startKey) tables) ∧
      Merged (· ≥ ·) (inputs ((s.levels 0).reverse.map fun t => t.scanItems startKey)) tables := by
  have hnoMemtable : Yields (MergeIterator.new ([] : List MemTableIterator)) [] := Yields.done rfl
  have hnoTable : Yields (MergeIterator.new ([] : List SSTableIterator)) [] := Yields.done rfl
  have hmem : Yields (s.buildMemtableIterator startKey) (s.memtable.scanItems startKey) := by
    have hyields := TwoMergeIterator.yields_new (yields_memtableIterator s.memtable startKey)
      hnoMemtable
    rw [twoMerge_nil_right] at hyields
    have himm : s.buildMemtableIterator startKey =
        TwoMergeIterator.new (memtableIterator s.memtable startKey) (MergeIterator.new []) := by
      rw [buildMemtableIterator, h.immutableMemtables]
      rfl
    rw [himm]
    exact hyields
  have hdeeper : (List.range' 1 6).flatMap s.levels = [] := by
    rw [List.flatMap_eq_nil_iff]
    intro level hlevel
    apply h.deeper
    have := (List.mem_range'_1.mp hlevel).1
    omega
  have hlevels : Yields (s.buildLevelIterator startKey) [] := by
    rw [buildLevelIterator, hdeeper]
    exact hnoTable
  have hsound : ∀ t ∈ (s.levels 0).reverse, t.Sound := fun t ht =>
    h.tables t (List.mem_reverse.mp ht)
  obtain ⟨tables, hl0, hmerged⟩ := exists_merged_tables hsound startKey
  have hssts := TwoMergeIterator.yields_new hl0 hlevels
  rw [twoMerge_nil_right] at hssts
  exact ⟨tables, TwoMergeIterator.yields_new hmem hssts, hmerged⟩

end Lsm

/-! ## First versions -/

theorem firstOf_eq_some_iff {items : List Item} (hsorted : items.Pairwise fun a b => a.1 < b.1)
    {key : Bytes} {item : Item} : firstOf key items = some item ↔
      item ∈ items ∧ item.1.data = key ∧ ∀ other ∈ items, other.1.data = key →
        item.1 ≤ other.1 := by
  induction items with
  | nil => simp [firstOf]
  | cons first rest ih =>
      obtain ⟨hfirst, hrest⟩ := List.pairwise_cons.mp hsorted
      by_cases hdata : first.1.data = key
      · rw [firstOf, List.find?_cons, decide_eq_true hdata]
        simp only [Option.some.injEq]
        constructor
        · rintro rfl
          refine ⟨List.mem_cons_self .., hdata, ?_⟩
          intro other hother _
          rcases List.mem_cons.mp hother with rfl | hother
          · exact le_rfl
          · exact (hfirst other hother).le
        · rintro ⟨hitem, _, hle⟩
          rcases List.mem_cons.mp hitem with rfl | hitem
          · rfl
          · exact absurd (hle first (List.mem_cons_self ..) hdata) (hfirst item hitem).not_ge
      · have hskip : firstOf key (first :: rest) = firstOf key rest := by
          rw [firstOf, List.find?_cons, decide_eq_false hdata, firstOf]
        rw [hskip, ih hrest, List.mem_cons, List.forall_mem_cons]
        constructor
        · rintro ⟨hitem, hkey, hle⟩
          exact ⟨Or.inr hitem, hkey, fun h => absurd h hdata, hle⟩
        · rintro ⟨hitem, hkey, _, hle⟩
          rcases hitem with rfl | hitem
          · exact absurd hkey hdata
          · exact ⟨hitem, hkey, hle⟩

theorem firstOf_eq_none_iff {items : List Item} {key : Bytes} :
    firstOf key items = none ↔ ∀ item ∈ items, item.1.data ≠ key := by
  simp [firstOf]

/-- The last of a list where a function has a value is the first from behind. -/
theorem findSome?_reverse {α β : Type} {f : α → Option β} {l : List α} {i : ℕ} {a : α} {b : β}
    (ha : l[i]? = some a) (hb : f a = some b)
    (hlast : ∀ (j : ℕ) (c : α), l[j]? = some c → f c ≠ none → j ≤ i) :
    l.reverse.findSome? f = some b := by
  induction l using List.reverseRecOn with
  | nil => contradiction
  | append_singleton l last ih =>
      rw [List.reverse_append, List.reverse_singleton, List.singleton_append, List.findSome?_cons]
      have hend : (l ++ [last])[l.length]? = some last := by simp
      have hi : i < l.length + 1 := by simpa using (List.getElem?_eq_some_iff.mp ha).1
      by_cases heq : i = l.length
      · rw [heq, hend] at ha
        obtain rfl := Option.some.inj ha
        rw [hb]
      · have hlt : i < l.length := by omega
        have hnone : f last = none := by
          by_contra hsome
          have hle := hlast l.length last hend hsome
          omega
        rw [hnone]
        refine ih ?_ ?_
        · rwa [List.getElem?_append_left hlt] at ha
        · intro j c hc hsome
          have hj := (List.getElem?_eq_some_iff.mp hc).1
          refine hlast j c ?_ hsome
          rwa [List.getElem?_append_left hj]

/-- The last of a list's values that are least is the first of them from behind. -/
theorem argmin_filterMap_reverse {α β γ : Type} [LinearOrder γ] {f : α → Option β} {g : β → γ}
    {l : List α} {i : ℕ} {a : α} {b : β} (ha : l[i]? = some a) (hb : f a = some b)
    (hleast : ∀ (j : ℕ) (c : α) (d : β), l[j]? = some c → f c = some d →
      g b < g d ∨ g b = g d ∧ j ≤ i) :
    (l.reverse.filterMap f).argmin g = some b := by
  induction l using List.reverseRecOn with
  | nil => contradiction
  | append_singleton l last ih =>
      rw [List.reverse_append, List.reverse_singleton, List.singleton_append]
      have hend : (l ++ [last])[l.length]? = some last := by simp
      have hi : i < l.length + 1 := by simpa using (List.getElem?_eq_some_iff.mp ha).1
      by_cases heq : i = l.length
      · -- it is the first from behind, and stays unless a later one is less
        rw [heq, hend] at ha
        obtain rfl := Option.some.inj ha
        rw [List.filterMap_cons_some hb, List.argmin_cons]
        cases hrest : (l.reverse.filterMap f).argmin g with
        | none => rfl
        | some d =>
            have hd : d ∈ l.reverse.filterMap f := List.argmin_mem hrest
            obtain ⟨c, hc, hcd⟩ := List.mem_filterMap.mp hd
            obtain ⟨j, hj, hget⟩ := List.getElem_of_mem (List.mem_reverse.mp hc)
            have hle : g b ≤ g d := by
              have hget' : (l ++ [last])[j]? = some c := by
                rw [List.getElem?_append_left hj]
                exact List.getElem?_eq_some_iff.mpr ⟨hj, hget⟩
              rcases hleast j c d hget' hcd with hlt | ⟨heq, _⟩
              · exact hlt.le
              · exact heq.le
            exact if_neg hle.not_gt
      · -- the last one, if it has a value, comes first but is greater
        have hlt : i < l.length := by omega
        have hrest : (l.reverse.filterMap f).argmin g = some b := by
          refine ih ?_ ?_
          · rwa [List.getElem?_append_left hlt] at ha
          · intro j c d hc hcd
            have hj := (List.getElem?_eq_some_iff.mp hc).1
            refine hleast j c d ?_ hcd
            rwa [List.getElem?_append_left hj]
        cases hlast : f last with
        | none => rwa [List.filterMap_cons_none hlast]
        | some d =>
            rw [List.filterMap_cons_some hlast, List.argmin_cons, hrest]
            have hless : g b < g d := by
              rcases hleast l.length last d hend hlast with hless | ⟨_, hle⟩
              · exact hless
              · omega
            exact if_pos hless

/-- Among equals the first one counts as the least. -/
theorem argmin_of_forall_eq {α β : Type} [LinearOrder β] {f : α → β} {l : List α}
    (hsame : ∀ a ∈ l, ∀ b ∈ l, f a = f b) : l.argmin f = l.head? := by
  cases l with
  | nil => rfl
  | cons a rest =>
      rw [List.argmin_cons]
      cases hrest : rest.argmin f with
      | none => rfl
      | some b =>
          have hb : b ∈ a :: rest := List.mem_cons_of_mem _ (List.argmin_mem hrest)
          exact if_neg (hsame b hb a (List.mem_cons_self ..)).not_lt

/-- A merge has of each key the least of its inputs' first items, on a tie that of the last
input. -/
theorem Merged.firstOf_eq_argmin {lists : List (List Item)} {out : List Item}
    (h : Merged (· ≥ ·) (inputs lists) out) (key : Bytes) :
    firstOf key out = (lists.reverse.filterMap (firstOf key)).argmin Prod.fst := by
  cases hout : firstOf key out with
  | none =>
      rw [firstOf_eq_none_iff] at hout
      have hnil : lists.reverse.filterMap (firstOf key) = [] := by
        rw [List.filterMap_eq_nil_iff]
        intro items hitems
        rw [firstOf_eq_none_iff]
        intro item hitem hdata
        obtain ⟨i, hinput⟩ := exists_inputs_eq (List.mem_reverse.mp hitems)
        obtain ⟨item', hitem', hdata'⟩ := h.complete i item (hinput ▸ hitem)
        exact hout item' hitem' (hdata'.trans hdata)
      rw [hnil, List.argmin_nil]
  | some item =>
      obtain ⟨hmem, hdata⟩ := firstOf_eq_some hout
      obtain ⟨i, hfirst, hbest⟩ := h.best item hmem
      rw [hdata] at hfirst hbest
      have hi : i < lists.length := by
        by_contra hge
        rw [inputs_of_le (not_lt.mp hge)] at hfirst
        contradiction
      rw [inputs_of_lt hi] at hfirst
      refine (argmin_filterMap_reverse (List.getElem?_eq_getElem hi) hfirst ?_).symm
      intro j items other hj hother
      obtain ⟨hlt, rfl⟩ := List.getElem?_eq_some_iff.mp hj
      refine hbest j other ?_
      rw [inputs_of_lt hlt]
      exact hother

/-- Where all versions of a key are equally old, a merge gives that of the last input. -/
theorem Merged.firstOf_eq {lists : List (List Item)} {out : List Item}
    (h : Merged (· ≥ ·) (inputs lists) out)
    (hsame : ∀ items ∈ lists, ∀ a ∈ items, ∀ items' ∈ lists, ∀ b ∈ items',
      a.1.data = b.1.data → a.1 = b.1) (key : Bytes) :
    firstOf key out = lists.reverse.findSome? (firstOf key) := by
  rw [h.firstOf_eq_argmin, argmin_of_forall_eq, List.head?_filterMap]
  intro a ha b hb
  obtain ⟨items, hitems, hfirst⟩ := List.mem_filterMap.mp ha
  obtain ⟨items', hitems', hfirst'⟩ := List.mem_filterMap.mp hb
  obtain ⟨hmem, hdata⟩ := firstOf_eq_some hfirst
  obtain ⟨hmem', hdata'⟩ := firstOf_eq_some hfirst'
  exact hsame items (List.mem_reverse.mp hitems) a hmem items' (List.mem_reverse.mp hitems') b hmem'
    (hdata.trans hdata'.symm)

/-- The first version in the merge of two is that of the first list, if it is there. -/
theorem firstOf_twoMerge {as bs : List Item} (has : as.Pairwise fun a b => a.1 < b.1)
    (hbs : Distinct bs) (htie : ∀ a ∈ as, ∀ b ∈ bs, a.1.data = b.1.data → a.1 ≤ b.1) (key : Bytes) :
    firstOf key (twoMerge as bs) = (firstOf key as).or (firstOf key bs) := by
  obtain ⟨hsorted, hmem⟩ := twoMerge_spec has hbs htie
  have hbsSorted : bs.Pairwise fun a b => a.1 < b.1 := hbs.imp Key.lt_of_data_lt
  cases ha : firstOf key as with
  | some a =>
      obtain ⟨hin, hdata, hle⟩ := (firstOf_eq_some_iff has).mp ha
      rw [Option.some_or, firstOf_eq_some_iff hsorted]
      refine ⟨(hmem a).mpr (Or.inl hin), hdata, ?_⟩
      intro other hother hotherData
      rcases (hmem other).mp hother with hother | ⟨_, hnot⟩
      · exact hle other hother hotherData
      · exact absurd (hdata.trans hotherData.symm) (hnot a hin)
  | none =>
      have hnone := firstOf_eq_none_iff.mp ha
      -- what is left of the key comes from the second list
      have hfrom : ∀ item ∈ twoMerge as bs, item.1.data = key → item ∈ bs := by
        intro item hitem hdata
        rcases (hmem item).mp hitem with hitem | ⟨hitem, _⟩
        · exact absurd hdata (hnone item hitem)
        · exact hitem
      rw [Option.none_or]
      cases hb : firstOf key bs with
      | some b =>
          obtain ⟨hin, hdata, hle⟩ := (firstOf_eq_some_iff hbsSorted).mp hb
          rw [firstOf_eq_some_iff hsorted]
          refine ⟨(hmem b).mpr (Or.inr ⟨hin, ?_⟩), hdata, ?_⟩
          · intro a ha heq
            exact hnone a ha (heq.trans hdata)
          · intro other hother hotherData
            exact hle other (hfrom other hother hotherData) hotherData
      | none =>
          rw [firstOf_eq_none_iff] at hb ⊢
          intro item hitem hdata
          exact hb item (hfrom item hitem hdata) hdata

namespace Lsm

/-- The version of a key that a scan from `startKey` meets first. -/
def firstMet (s : Lsm) (startKey : Option Bytes) (key : Bytes) : Option Item :=
  (firstOf key (s.memtable.scanItems startKey)).or
    ((s.levels 0).findSome? fun t => firstOf key (t.scanItems startKey))

/-! ## Bounds -/

/-- In a list with the items in order, what comes before the first item without the
property is what has only such items before it. -/
theorem mem_takeWhile_iff {items : List Item} (hsorted : items.Pairwise fun a b => a.1 < b.1)
    (p : Item → Bool) {item : Item} :
    item ∈ items.takeWhile p ↔ item ∈ items ∧ ∀ item' ∈ items, item'.1 ≤ item.1 → p item' := by
  induction items with
  | nil => simp
  | cons first rest ih =>
      obtain ⟨hfirst, hrest⟩ := List.pairwise_cons.mp hsorted
      rw [List.takeWhile_cons, List.mem_cons, List.forall_mem_cons]
      cases hp : p first with
      | true =>
          rw [if_pos rfl, List.mem_cons, ih hrest]
          constructor
          · rintro (rfl | ⟨hitem, hbefore⟩)
            · refine ⟨Or.inl rfl, fun _ => rfl, ?_⟩
              intro item' hitem' hle
              exact absurd hle (hfirst item' hitem').not_ge
            · exact ⟨Or.inr hitem, fun _ => rfl, hbefore⟩
          · rintro ⟨hitem | hitem, _, hbefore⟩
            · exact Or.inl hitem
            · exact Or.inr ⟨hitem, hbefore⟩
      | false =>
          have hle : item = first ∨ item ∈ rest → first.1 ≤ item.1 := by
            rintro (rfl | hitem)
            · exact le_rfl
            · exact (hfirst item hitem).le
          constructor
          · intro hnil
            exact absurd hnil List.not_mem_nil
          · rintro ⟨hitem, hnot, _⟩
            exact absurd (hnot (hle hitem)) Bool.false_ne_true

theorem yields_skipExcluded {it : LsmIterator} {items : List Item} (h : Yields it items)
    (excluded : Bytes) {fuel : ℕ} (hfuel : items.length ≤ fuel) :
    ∃ it', skipExcluded excluded fuel it = .ok it' ∧ Yields it' (dropKey excluded items) := by
  induction h generalizing fuel with
  | @done it hvalid =>
      refine ⟨it, ?_, Yields.done hvalid⟩
      cases fuel with
      | zero => rfl
      | succ fuel => simp [skipExcluded, hvalid]
  | @step it it' item rest hvalid hitem hremaining hnext hrest ih =>
      obtain ⟨fuel, rfl⟩ : ∃ n, fuel = n + 1 := ⟨fuel - 1, by simp at hfuel; omega⟩
      have hkey : key it = item.1 := congrArg Prod.fst hitem
      rw [dropKey_cons]
      by_cases hdata : item.1.data = excluded
      · have hlength : rest.length ≤ fuel := by simpa using hfuel
        obtain ⟨last, hskip, hlast⟩ := ih hlength
        refine ⟨last, ?_, ?_⟩
        · rw [skipExcluded, if_pos ⟨hvalid, hkey ▸ hdata⟩, hnext]
          exact hskip
        · rw [if_pos hdata]
          exact hlast
      · refine ⟨it, ?_, ?_⟩
        · rw [skipExcluded, if_neg (by simp [hkey, hdata])]
        · rw [if_neg hdata]
          exact Yields.step hvalid hitem hremaining hnext hrest

/-- What a scan goes through: within the bounds, every key at its first version. -/
structure Scanned (s : Lsm) (start last : Bound) (items : List Item) : Prop where
  sorted : items.Pairwise fun a b => a.1 < b.1
  within : ∀ item ∈ items, Within start last item.1.data
  firstOf : ∀ key, Within start last key → firstOf key items = s.firstMet start.startKey key

theorem admits_of_le {last : Bound} {key key' : Bytes} (hle : key ≤ key')
    (hadmits : last.admits key' = true) : last.admits key = true := by
  cases last with
  | unbounded => rfl
  | included bound => exact decide_eq_true (hle.trans (of_decide_eq_true hadmits))
  | excluded bound => exact decide_eq_true (hle.trans_lt (of_decide_eq_true hadmits))

/-- Cutting at the end of the scan keeps the first versions of the keys before it. -/
theorem firstOf_takeWhile {items : List Item} (hsorted : items.Pairwise fun a b => a.1 < b.1)
    {last : Bound} {key : Bytes} (hadmits : last.admits key = true) :
    Crabstash.firstOf key (items.takeWhile fun item => last.admits item.1.data) =
      Crabstash.firstOf key items := by
  have hcut : (items.takeWhile fun item => last.admits item.1.data).Pairwise
      fun a b => a.1 < b.1 := hsorted.sublist (List.takeWhile_sublist _)
  have hmem : ∀ item ∈ items, item.1.data = key →
      item ∈ items.takeWhile fun item => last.admits item.1.data := by
    intro item hitem hdata
    refine (mem_takeWhile_iff hsorted _).mpr ⟨hitem, ?_⟩
    intro item' _ hle
    exact admits_of_le (Key.data_le_of_le hle) (hdata ▸ hadmits)
  cases hfirst : Crabstash.firstOf key items with
  | none =>
      rw [firstOf_eq_none_iff] at hfirst ⊢
      intro item hitem
      exact hfirst item ((List.takeWhile_sublist _).mem hitem)
  | some item =>
      obtain ⟨hitem, hdata, hle⟩ := (firstOf_eq_some_iff hsorted).mp hfirst
      rw [firstOf_eq_some_iff hcut]
      refine ⟨hmem item hitem hdata, hdata, ?_⟩
      intro other hother
      exact hle other ((List.takeWhile_sublist _).mem hother)

/-- The merge has every key at its first version, and nothing below the start. -/
theorem OneSession.exists_merged {s : Lsm} (h : s.OneSession) (startKey : Option Bytes) :
    ∃ items, Yields (TwoMergeIterator.new (s.buildMemtableIterator startKey)
        (TwoMergeIterator.new (s.buildL0Iterator startKey) (s.buildLevelIterator startKey))) items ∧
      (items.Pairwise fun a b => a.1 < b.1) ∧
      (∀ target, startKey = some target → ∀ item ∈ items, target ≤ item.1.data) ∧
      ∀ key, Crabstash.firstOf key items = s.firstMet startKey key := by
  obtain ⟨tables, hyields, hmerged⟩ := h.yields_merge startKey
  -- what the merge of the tables gives is in one of them
  have hsource : ∀ item ∈ tables, ∃ t ∈ s.levels 0, item ∈ t.scanItems startKey := by
    intro item hitem
    obtain ⟨items, hitems, hin⟩ := hmerged.exists_input hitem
    obtain ⟨t, ht, rfl⟩ := List.mem_map.mp hitems
    exact ⟨t, List.mem_reverse.mp ht, hin⟩
  have htie : ∀ a ∈ s.memtable.scanItems startKey, ∀ b ∈ tables, a.1.data = b.1.data →
      a.1 ≤ b.1 := by
    intro a _ b hb hdata
    obtain ⟨t, _, hin⟩ := hsource b hb
    exact Key.le_iff.mpr (Or.inr ⟨hdata, SSTable.timestamp_of_mem_scanItems hin ▸ Nat.zero_le _⟩)
  have hmemtable := s.memtable.sorted_scanItems startKey
  obtain ⟨hsorted, hmem⟩ := twoMerge_spec hmemtable hmerged.sorted htie
  refine ⟨_, hyields, hsorted, ?_, ?_⟩
  · rintro target rfl item hitem
    rcases (hmem item).mp hitem with hitem | ⟨hitem, _⟩
    · exact MemTable.le_of_mem_scanItems hitem
    · obtain ⟨t, ht, hin⟩ := hsource item hitem
      exact (h.tables t ht).le_of_mem_scanItems hin
  · intro key
    have hsame : ∀ items ∈ (s.levels 0).reverse.map (fun t => t.scanItems startKey),
        ∀ a ∈ items, ∀ items' ∈ (s.levels 0).reverse.map (fun t => t.scanItems startKey),
        ∀ b ∈ items', a.1.data = b.1.data → a.1 = b.1 := by
      intro items hitems a ha items' hitems' b hb hdata
      obtain ⟨t, _, rfl⟩ := List.mem_map.mp hitems
      obtain ⟨t', _, rfl⟩ := List.mem_map.mp hitems'
      refine Key.ext hdata ?_
      rw [SSTable.timestamp_of_mem_scanItems ha, SSTable.timestamp_of_mem_scanItems hb]
    rw [firstOf_twoMerge hmemtable hmerged.sorted htie, hmerged.firstOf_eq hsame,
      ← List.map_reverse, List.reverse_reverse, List.findSome?_map, firstMet]
    rfl

/-- A scan goes through the keys within its bounds. -/
theorem OneSession.exists_scanned {s : Lsm} (h : s.OneSession) (start last : Bound) :
    ∃ it items, s.buildScanIterator start last = .ok it ∧ Yields it items ∧
      s.Scanned start last items := by
  obtain ⟨merged, hmerged, hsorted, hstart, hfirst⟩ := h.exists_merged start.startKey
  have hbounded := BoundedIterator.yields_new hmerged last
  set bounded := merged.takeWhile fun item => last.admits item.1.data with hcut
  have hbsorted : bounded.Pairwise fun a b => a.1 < b.1 :=
    hsorted.sublist (List.takeWhile_sublist _)
  have hlast : ∀ item ∈ bounded, item ∈ merged ∧ last.admits item.1.data = true := by
    intro item hitem
    obtain ⟨hin, hadmits⟩ := (mem_takeWhile_iff hsorted _).mp hitem
    exact ⟨hin, hadmits item hin le_rfl⟩
  have hbfirst : ∀ key, last.admits key = true →
      Crabstash.firstOf key bounded = s.firstMet start.startKey key := by
    intro key hadmits
    rw [hcut, firstOf_takeWhile hsorted hadmits, hfirst]
  unfold buildScanIterator
  cases start with
  | unbounded =>
      refine ⟨_, bounded, rfl, hbounded, hbsorted, ?_, ?_⟩
      · intro item hitem
        exact ⟨rfl, (hlast item hitem).2⟩
      · intro key hwithin
        exact hbfirst key hwithin.2
  | included first =>
      refine ⟨_, bounded, rfl, hbounded, hbsorted, ?_, ?_⟩
      · intro item hitem
        obtain ⟨hin, hadmits⟩ := hlast item hitem
        exact ⟨decide_eq_true (hstart first rfl item hin), hadmits⟩
      · intro key hwithin
        exact hbfirst key hwithin.2
  | excluded first =>
      obtain ⟨it, hskip, hyields⟩ := yields_skipExcluded hbounded first hbounded.length_le
      -- the seek stops at `first` itself, which is then skipped
      have hle : ∀ item ∈ bounded, first ≤ item.1.data := by
        intro item hitem
        exact hstart first rfl item (hlast item hitem).1
      have hbkeys : Sorted bounded := hbsorted.imp le_of_lt
      refine ⟨it, dropKey first bounded, hskip, hyields, ?_, ?_, ?_⟩
      · exact hbsorted.sublist (List.dropWhile_sublist _)
      · intro item hitem
        have hin := (List.dropWhile_sublist _).mem hitem
        exact ⟨decide_eq_true (lt_of_mem_dropKey hbkeys hle hitem), (hlast item hin).2⟩
      · intro key hwithin
        have hne : key ≠ first := (of_decide_eq_true hwithin.1 : first < key).ne'
        rw [firstOf_dropKey hne]
        exact hbfirst key hwithin.2

end Lsm
end Crabstash

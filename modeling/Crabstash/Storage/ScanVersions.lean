import Crabstash.Foundations.Groups
import Crabstash.Storage.FlushedTables

/-!
# What a scan has of one key

A merge goes through the keys one after another, and what it has of a key depends on what its
inputs have of that key alone (`allOf_twoMerge`, `Merged.firstOf_eq_argmin`).  Two lists in order
that have the same of every key are the same (`Sorted.eq_of_allOf`), so that scans can be compared
key by key.

A seek leaves of its target what comes last: a memtable keeps the oldest version
(`MemTable.allOf_itemsFrom`), a table what is in the last block that has the key
(`SSTable.Sound.firstOf_entriesFrom`).  Of the keys beyond the target nothing is left out.
-/

namespace Crabstash

/-- The items with the given key data. -/
def allOf (data : Bytes) (items : List Item) : List Item :=
  items.filter fun item => decide (item.1.data = data)

theorem mem_allOf {data : Bytes} {items : List Item} {item : Item} :
    item ∈ allOf data items ↔ item ∈ items ∧ item.1.data = data := by
  rw [allOf, List.mem_filter, decide_eq_true_iff]

theorem firstOf_eq_head? (data : Bytes) (items : List Item) :
    firstOf data items = (allOf data items).head? := by
  rw [firstOf, allOf, List.head?_filter]

theorem allOf_cons_of_eq {data : Bytes} {item : Item} (hdata : item.1.data = data)
    (rest : List Item) : allOf data (item :: rest) = item :: allOf data rest :=
  List.filter_cons_of_pos (decide_eq_true hdata)

theorem allOf_cons_of_ne {data : Bytes} {item : Item} (hdata : item.1.data ≠ data)
    (rest : List Item) : allOf data (item :: rest) = allOf data rest :=
  List.filter_cons_of_neg (by simpa using hdata)

theorem allOf_eq_nil {data : Bytes} {items : List Item} (hne : ∀ item ∈ items, item.1.data ≠ data) :
    allOf data items = [] := by
  rw [allOf, List.filter_eq_nil_iff]
  intro item hitem
  simpa using hne item hitem

theorem allOf_filter (p : Bytes → Bool) (data : Bytes) (items : List Item) :
    allOf data (items.filter fun item => p item.1.data) =
      if p data = true then allOf data items else [] := by
  have hboth : allOf data (items.filter fun item => p item.1.data) =
      items.filter fun item => decide (item.1.data = data) && p data := by
    rw [allOf, List.filter_filter]
    apply List.filter_congr
    intro item _
    by_cases hdata : item.1.data = data
    · simp [hdata]
    · simp [hdata]
  rw [hboth]
  cases p data with
  | true => simp [allOf]
  | false => simp

/-- In order, what comes before the first item that the end does not admit is all that it
admits. -/
theorem Sorted.takeWhile_admits {items : List Item} (hsorted : Sorted items) (last : Bound) :
    (items.takeWhile fun item => last.admits item.1.data) =
      items.filter fun item => last.admits item.1.data := by
  induction items with
  | nil => rfl
  | cons first rest ih =>
      obtain ⟨hfirst, hrest⟩ := List.pairwise_cons.mp hsorted
      cases hadmits : last.admits first.1.data with
      | true =>
          rw [List.takeWhile_cons, List.filter_cons, hadmits, if_pos rfl, ih hrest]
          rfl
      | false =>
          have hnone : rest.filter (fun item => last.admits item.1.data) = [] := by
            rw [List.filter_eq_nil_iff]
            intro item hitem hlater
            have hle := Key.data_le_of_le (hfirst item hitem)
            rw [Lsm.admits_of_le hle hlater] at hadmits
            contradiction
          rw [List.takeWhile_cons, List.filter_cons, hadmits, hnone]
          rfl

/-- Skipping the key that a list begins with takes all of its items away, and no other. -/
theorem allOf_dropKey {items : List Item} (hsorted : Sorted items) {excluded : Bytes}
    (hle : ∀ item ∈ items, excluded ≤ item.1.data) (data : Bytes) :
    allOf data (dropKey excluded items) = if data = excluded then [] else allOf data items := by
  split
  · next heq =>
      apply allOf_eq_nil
      intro item hitem
      rw [heq]
      exact (lt_of_mem_dropKey hsorted hle hitem).ne'
  · next hne =>
      clear hsorted hle
      induction items with
      | nil => rfl
      | cons first rest ih =>
          rw [dropKey_cons]
          split
          · next hfirst => rw [ih, allOf_cons_of_ne fun heq => hne (heq.symm.trans hfirst)]
          · rfl

/-! ## The merge of two -/

theorem sorted_twoMerge {as bs : List Item} (has : Sorted as) (hbs : Sorted bs) :
    Sorted (twoMerge as bs) := by
  fun_induction twoMerge as bs with
  | case1 bs => exact hbs
  | case2 as => exact has
  | case3 a as b bs hle hdata ih =>
      obtain ⟨hfirst, hrest⟩ := List.pairwise_cons.mp has
      obtain ⟨hfirst', hrest'⟩ := List.pairwise_cons.mp hbs
      refine List.pairwise_cons.mpr ⟨?_, ih hrest hrest'⟩
      intro item hitem
      rcases mem_or_mem_of_mem_twoMerge hitem with hitem | hitem
      · exact hfirst item hitem
      · exact hle.trans (hfirst' item hitem)
  | case4 a as b bs hle hdata ih =>
      obtain ⟨hfirst, hrest⟩ := List.pairwise_cons.mp has
      refine List.pairwise_cons.mpr ⟨?_, ih hrest hbs⟩
      intro item hitem
      rcases mem_or_mem_of_mem_twoMerge hitem with hitem | hitem
      · exact hfirst item hitem
      · rcases List.mem_cons.mp hitem with rfl | hitem
        · exact hle
        · exact hle.trans ((List.pairwise_cons.mp hbs).1 item hitem)
  | case5 a as b bs hle ih =>
      have hlt : b.1 < a.1 := not_le.mp hle
      obtain ⟨hfirst', hrest'⟩ := List.pairwise_cons.mp hbs
      refine List.pairwise_cons.mpr ⟨?_, ih has hrest'⟩
      intro item hitem
      rcases mem_or_mem_of_mem_twoMerge hitem with hitem | hitem
      · rcases List.mem_cons.mp hitem with rfl | hitem
        · exact hlt.le
        · exact hlt.le.trans ((List.pairwise_cons.mp has).1 item hitem)
      · exact hfirst' item hitem

/-- Keys below the first one of a list are not in it. -/
theorem Sorted.allOf_eq_nil_of_lt {first : Item} {rest : List Item} (hsorted : Sorted (first :: rest))
    {data : Bytes} (hlt : data < first.1.data) : allOf data (first :: rest) = [] := by
  apply allOf_eq_nil
  intro item hitem
  rcases List.mem_cons.mp hitem with rfl | hitem
  · exact hlt.ne'
  · have hle : first.1 ≤ item.1 := (List.pairwise_cons.mp hsorted).1 item hitem
    exact (hlt.trans_le (Key.data_le_of_le hle)).ne'

theorem allOf_twoMerge {as bs : List Item} (has : Sorted as) (hbs : Sorted bs) (data : Bytes) :
    allOf data (twoMerge as bs) = twoMerge (allOf data as) (allOf data bs) := by
  fun_induction twoMerge as bs with
  | case1 bs => exact (twoMerge_nil_left _).symm
  | case2 as => exact (twoMerge_nil_right _).symm
  | case3 a as b bs hle hdata ih =>
      have hrest := ih (List.pairwise_cons.mp has).2 (List.pairwise_cons.mp hbs).2
      by_cases heq : a.1.data = data
      -- both fronts have the key, and the second is skipped
      · have heq' : b.1.data = data := hdata.symm.trans heq
        rw [allOf_cons_of_eq heq, allOf_cons_of_eq heq, allOf_cons_of_eq heq', hrest, twoMerge,
          if_pos hle, if_pos hdata]
      · have hne : b.1.data ≠ data := fun h => heq (hdata.trans h)
        rw [allOf_cons_of_ne heq, allOf_cons_of_ne heq, allOf_cons_of_ne hne, hrest]
  | case4 a as b bs hle hdata ih =>
      have hrest := ih (List.pairwise_cons.mp has).2 hbs
      by_cases heq : a.1.data = data
      · -- the second list is past the key
        have hlt : data < b.1.data := by
          rw [← heq]
          exact lt_of_le_of_ne (Key.data_le_of_le hle) hdata
        have hnil := hbs.allOf_eq_nil_of_lt hlt
        rw [allOf_cons_of_eq heq, allOf_cons_of_eq heq, hrest, hnil, twoMerge_nil_right,
          twoMerge_nil_right]
      · rw [allOf_cons_of_ne heq, allOf_cons_of_ne heq, hrest]
  | case5 a as b bs hle ih =>
      have hrest := ih has (List.pairwise_cons.mp hbs).2
      by_cases heq : b.1.data = data
      · rw [allOf_cons_of_eq heq, allOf_cons_of_eq heq, hrest]
        by_cases hsame : a.1.data = data
        · rw [allOf_cons_of_eq hsame, twoMerge, if_neg hle]
        · -- the first list is past the key
          have hlt : data < a.1.data := by
            refine lt_of_le_of_ne ?_ (Ne.symm hsame)
            rw [← heq]
            exact Key.data_le_of_le (not_le.mp hle).le
          have hnil := has.allOf_eq_nil_of_lt hlt
          rw [hnil, twoMerge_nil_left, twoMerge_nil_left]
      · rw [allOf_cons_of_ne heq, allOf_cons_of_ne heq, hrest]

/-- Of two items with one key data the greater is left out of the merge, if it is the second. -/
theorem twoMerge_singleton {a b : Item} (hdata : a.1.data = b.1.data) (as : List Item) :
    twoMerge (a :: as) [b] = if a.1 ≤ b.1 then a :: as else b :: a :: as := by
  by_cases hle : a.1 ≤ b.1
  · rw [twoMerge, if_pos hle, if_pos hdata, if_pos hle, twoMerge_nil_right]
  · rw [twoMerge, if_neg hle, if_neg hle, twoMerge_nil_right]

theorem twoMerge_singleton_ne_nil (as : List Item) (b : Item) : twoMerge as [b] ≠ [] := by
  cases as with
  | nil => simp
  | cons a as =>
      rw [twoMerge]
      split
      · split <;> exact List.cons_ne_nil _ _
      · exact List.cons_ne_nil _ _

/-! ## The merge of many -/

namespace Merged

variable {lists : List (List Item)} {out : List Item}

theorem sorted_items (h : Merged (· ≥ ·) (inputs lists) out) : Sorted out :=
  h.sorted.imp fun hlt => (Key.lt_of_data_lt hlt).le

theorem allOf_eq (h : Merged (· ≥ ·) (inputs lists) out) (key : Bytes) :
    allOf key out = (firstOf key out).toList := by
  have hsorted := h.sorted
  clear h
  induction out with
  | nil => rfl
  | cons item rest ih =>
      obtain ⟨hfirst, hrest⟩ := List.pairwise_cons.mp hsorted
      by_cases hdata : item.1.data = key
      · have hnil : allOf key rest = [] := by
          apply allOf_eq_nil
          intro other hother
          rw [← hdata]
          exact (hfirst other hother).ne'
        rw [firstOf_eq_head?, allOf_cons_of_eq hdata, hnil]
        rfl
      · rw [allOf_cons_of_ne hdata, ih hrest, firstOf_eq_head?, firstOf_eq_head?,
          allOf_cons_of_ne hdata]

end Merged

/-! ## Seeks -/

/-- The versions of a key in a memtable, the newest first. -/
def MemTable.versionsOf (m : MemTable) (key : Bytes) : List Item := allOf key m.iter

theorem MemTable.versionsOf_sorted (m : MemTable) (key : Bytes) :
    (m.versionsOf key).Pairwise fun a b => a.1 < b.1 :=
  m.map.sorted.filter _

/-- Of the versions of one key, the newest first, the last is the oldest. -/
theorem filter_oldest {versions : List Item} (hsorted : versions.Pairwise fun a b => a.1 < b.1)
    {key : Bytes} (hdata : ∀ item ∈ versions, item.1.data = key) :
    versions.filter (fun item => decide (∀ other ∈ versions,
      item.1.timestamp ≤ other.1.timestamp)) = versions.getLast?.toList := by
  rcases List.eq_nil_or_concat' versions with rfl | ⟨newer, last, rfl⟩
  · rfl
  have hbefore : ∀ item ∈ newer, last.1.timestamp < item.1.timestamp := by
    intro item hitem
    have hlt : item.1 < last.1 :=
      (List.pairwise_append.mp hsorted).2.2 item hitem last (List.mem_singleton_self _)
    have hsame : item.1.data = last.1.data := by
      rw [hdata item (List.mem_append_left _ hitem), hdata last (by simp)]
    -- with the data the same, the greater key is the older one
    rcases Key.lt_iff.mp hlt with hless | ⟨_, hnewer⟩
    · exact absurd hsame hless.ne
    · exact hnewer
  have hnone : newer.filter (fun item => decide (∀ other ∈ newer ++ [last],
      item.1.timestamp ≤ other.1.timestamp)) = [] := by
    rw [List.filter_eq_nil_iff]
    intro item hitem hle
    have hlast := of_decide_eq_true hle last (by simp)
    exact absurd hlast (hbefore item hitem).not_ge
  have hkept : [last].filter (fun item => decide (∀ other ∈ newer ++ [last],
      item.1.timestamp ≤ other.1.timestamp)) = [last] := by
    rw [List.filter_eq_self]
    intro item hitem
    rw [List.mem_singleton.mp hitem]
    refine decide_eq_true fun other hother => ?_
    rcases List.mem_append.mp hother with hother | hother
    · exact (hbefore other hother).le
    · rw [List.mem_singleton.mp hother]
  rw [List.filter_append, hnone, hkept, List.nil_append, List.getLast?_append,
    List.getLast?_singleton]
  rfl

/-- Of its target a seek leaves the oldest version. -/
theorem MemTable.allOf_itemsFrom (m : MemTable) (key : Bytes) :
    allOf key (m.itemsFrom key) = (m.versionsOf key).getLast?.toList := by
  have hdata : ∀ item ∈ m.versionsOf key, item.1.data = key := fun item hitem =>
    (mem_allOf.mp hitem).2
  rw [← filter_oldest (m.versionsOf_sorted key) hdata]
  unfold itemsFrom versionsOf
  rw [allOf, allOf, List.filter_filter, List.filter_filter]
  apply List.filter_congr
  intro item _
  by_cases hitem : item.1.data = key
  · have hmem : ∀ other : Item, other ∈ m.iter.filter (fun item => decide (item.1.data = key)) ↔
        other ∈ m.iter ∧ other.1.data = key := fun other => mem_allOf
    simp [hitem, hmem]
  · simp [hitem]

/-- Of a key beyond it, everything. -/
theorem MemTable.allOf_itemsFrom_of_lt (m : MemTable) {target key : Bytes} (hlt : target < key) :
    allOf key (m.itemsFrom target) = m.versionsOf key := by
  unfold itemsFrom versionsOf
  rw [allOf, allOf, List.filter_filter]
  apply List.filter_congr
  intro item _
  by_cases hdata : item.1.data = key
  · simp [hdata, hlt]
  · simp [hdata]

namespace SSTable.Sound

variable {t : SSTable}

theorem firstOf_entriesFrom (h : t.Sound) (key : Bytes) :
    firstOf key ((t.entriesFrom key).map SSTableIterator.itemOf) =
      (lastCut key t.blocks).map SSTableIterator.itemOf := by
  rw [← h.find?_entriesFrom]
  exact List.find?_map ..

theorem firstOf_entriesFrom_of_lt (h : t.Sound) {target key : Bytes} (hlt : target < key) :
    firstOf key ((t.entriesFrom target).map SSTableIterator.itemOf) =
      firstOf key (SSTableIterator.items t) := by
  rw [SSTableIterator.firstOf_items, ← h.find?_entriesFrom_of_lt hlt]
  exact List.find?_map ..

end SSTable.Sound
end Crabstash

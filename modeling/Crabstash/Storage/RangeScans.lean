import Crabstash.Storage.ScanVersions
import Crabstash.Storage.SoundTables

/-!
# Range scans and the full scan

A scan over a range is compared with the full scan of the same state, which is not moved to a
start.  The end of the range cuts off what is beyond it, and an excluded start is skipped with all
its versions; of the keys beyond the start the seeks leave out nothing.  So the two differ at most
in what they have of an included start key (`Lsm.filtersScan_iff_seekKeeps`).

Of that key the full scan has all versions of the active memtable, after the newest version in an
immutable one if that is newer still.  The range scan has the oldest version of the active memtable,
and the newest of those that are the oldest of their immutable memtable; and of a table in which
the key goes over several blocks, only what is in the last of them.  `SeekKeeps` says when it is
the same nevertheless.
-/

namespace Crabstash

open Crabstash.Action Run StorageIterator

/-- What `key()` and `value()` of a `LsmIterator` return for an item. -/
def pairOf (item : Item) : Bytes × Option Bytes := (item.1.data, item.2)

namespace Lsm

/-- The entries of a range scan are those of the full scan that lie within the bounds. -/
def FiltersScan (s : Lsm) (start last : Bound) : Prop :=
  ∃ full entries ranged part, s.scan = .ok full ∧ Yields full entries ∧
    s.scanRange start last = .ok ranged ∧ Yields ranged part ∧
    part.map pairOf = (entries.map pairOf).filter fun pair => decide (Within start last pair.1)

/-! ## What a merge has of a key -/

/-- The version of a key that the immutable memtables give to a scan: the newest of those that the
scan meets first in each. -/
def fromImmutables (s : Lsm) (startKey : Option Bytes) (key : Bytes) : Option Item :=
  (s.immutableMemtables.filterMap fun m => firstOf key (m.scanItems startKey)).argmin Prod.fst

/-- The tables below level 0, in the order in which a scan opens them. -/
def deeperTables (s : Lsm) : List SSTable := (List.range' 1 6).flatMap s.levels

/-- The table whose version of a key a scan takes: of level 0 the oldest that has the key, and
otherwise the last of the deeper levels. -/
def scannedTable (s : Lsm) (key : Bytes) : Option SSTable :=
  ((s.levels 0).find? fun t => decide (t.Has key)).or
    (s.deeperTables.reverse.find? fun t => decide (t.Has key))

/-- What a scan from `startKey` has of a key. -/
def scannedOf (s : Lsm) (startKey : Option Bytes) (key : Bytes) : List Item :=
  twoMerge
    (twoMerge (allOf key (s.memtable.scanItems startKey)) (s.fromImmutables startKey key).toList)
    ((s.scannedTable key).bind fun t => firstOf key (t.scanItems startKey)).toList

end Lsm

theorem findSome?_eq_find?_bind {α β : Type} {f : α → Option β} {p : α → Bool} {l : List α}
    (h : ∀ a ∈ l, f a = none ↔ p a = false) : l.findSome? f = (l.find? p).bind f := by
  induction l with
  | nil => rfl
  | cons a rest ih =>
      have hrest := ih fun b hb => h b (List.mem_cons_of_mem _ hb)
      cases hp : p a with
      | false =>
          have hnone : f a = none := (h a (List.mem_cons_self ..)).mpr hp
          rw [List.findSome?_cons, hnone, List.find?_cons_of_neg (by simp [hp])]
          exact hrest
      | true =>
          have hsome : f a ≠ none := by
            rw [ne_eq, h a (List.mem_cons_self ..), hp]
            exact Bool.false_ne_true ∘ Eq.symm
          obtain ⟨b, hb⟩ := Option.ne_none_iff_exists'.mp hsome
          rw [List.findSome?_cons, hb, List.find?_cons_of_pos hp]
          exact hb.symm

/-- A key from the start on is found in a table just when the table has it. -/
theorem SSTable.Sound.firstOf_scanItems_eq_none {t : SSTable} (h : t.Sound)
    {startKey : Option Bytes} {key : Bytes} (hstart : ∀ target ∈ startKey, target ≤ key) :
    firstOf key (t.scanItems startKey) = none ↔ ¬ t.Has key := by
  have hitems : firstOf key (SSTableIterator.items t) = none ↔ ¬ t.Has key := by
    rw [SSTableIterator.firstOf_items, Option.map_eq_none_iff, List.find?_eq_none]
    unfold SSTable.Has
    push Not
    exact forall₂_congr fun e _ => by simp
  cases startKey with
  | none => exact hitems
  | some target =>
      unfold scanItems
      rcases (hstart target rfl).lt_or_eq with hlt | rfl
      · rw [h.firstOf_entriesFrom_of_lt hlt, hitems]
      · rw [h.firstOf_entriesFrom, Option.map_eq_none_iff, lastCut_eq_none_iff]
        unfold SSTable.Has
        push Not
        rfl

namespace Lsm

variable {s : Lsm}

theorem sound_deeperTables (hsound : ∀ level, ∀ t ∈ s.levels level, t.Sound) :
    ∀ t ∈ s.deeperTables, t.Sound := by
  intro t ht
  obtain ⟨level, _, ht⟩ := List.mem_flatMap.mp ht
  exact hsound level t ht

theorem firstOf_immutables {imms : List Item} {startKey : Option Bytes}
    (h : Merged (· ≥ ·)
      (inputs (s.immutableMemtables.map fun m => m.scanItems startKey).reverse) imms) (key : Bytes) :
    firstOf key imms = s.fromImmutables startKey key := by
  rw [h.firstOf_eq_argmin, List.reverse_reverse, List.filterMap_map]
  rfl

/-- Of several tables a merge takes the version of the last one that has the key. -/
theorem firstOf_tables {tables : List SSTable} (hsound : ∀ t ∈ tables, t.Sound) {out : List Item}
    {startKey : Option Bytes}
    (h : Merged (· ≥ ·) (inputs (tables.map fun t => t.scanItems startKey)) out) {key : Bytes}
    (hstart : ∀ target ∈ startKey, target ≤ key) :
    firstOf key out = (tables.reverse.find? fun t => decide (t.Has key)).bind fun t =>
      firstOf key (t.scanItems startKey) := by
  have hsame : ∀ items ∈ tables.map (fun t => t.scanItems startKey), ∀ a ∈ items,
      ∀ items' ∈ tables.map (fun t => t.scanItems startKey), ∀ b ∈ items',
      a.1.data = b.1.data → a.1 = b.1 := by
    intro items hitems a ha items' hitems' b hb hdata
    obtain ⟨t, _, rfl⟩ := List.mem_map.mp hitems
    obtain ⟨t', _, rfl⟩ := List.mem_map.mp hitems'
    refine Key.ext hdata ?_
    rw [SSTable.timestamp_of_mem_scanItems ha, SSTable.timestamp_of_mem_scanItems hb]
  rw [h.firstOf_eq hsame, ← List.map_reverse, List.findSome?_map]
  refine findSome?_eq_find?_bind fun t ht => ?_
  rw [decide_eq_false_iff_not]
  exact (hsound t (List.mem_reverse.mp ht)).firstOf_scanItems_eq_none hstart

/-- The merge that a scan from `startKey` goes through: in order, nothing below the start, and of
every key what `scannedOf` says. -/
structure Merges (s : Lsm) (startKey : Option Bytes) (merged : List Item) : Prop where
  yields : Yields (TwoMergeIterator.new (s.buildMemtableIterator startKey)
    (TwoMergeIterator.new (s.buildL0Iterator startKey) (s.buildLevelIterator startKey))) merged
  sorted : Sorted merged
  start_le : ∀ target ∈ startKey, ∀ item ∈ merged, target ≤ item.1.data
  allOf : ∀ key, (∀ target ∈ startKey, target ≤ key) →
    allOf key merged = s.scannedOf startKey key

/-- The merge of the immutable memtables, the newest first. -/
theorem exists_merged_immutables (s : Lsm) (startKey : Option Bytes) : ∃ imms,
    Yields (MergeIterator.new
      (s.immutableMemtables.map fun m => memtableIterator m startKey).reverse) imms ∧
    Merged (· ≥ ·) (inputs (s.immutableMemtables.map fun m => m.scanItems startKey).reverse)
      imms := by
  apply MergeIterator.yields_new
  · rw [← List.map_reverse, ← List.map_reverse, List.forall₂_map_left_iff,
      List.forall₂_map_right_iff, List.forall₂_same]
    exact fun m _ => yields_memtableIterator m startKey
  · intro items hitems
    obtain ⟨m, _, rfl⟩ := List.mem_map.mp (List.mem_reverse.mp hitems)
    exact (m.sorted_scanItems startKey).imp le_of_lt

/-- The levels hand their versions of a key over as the one of `scannedTable`. -/
theorem allOf_levels (hsound : ∀ level, ∀ t ∈ s.levels level, t.Sound) {startKey : Option Bytes}
    {l0 deeper : List Item}
    (hl0 : Merged (· ≥ ·) (inputs ((s.levels 0).reverse.map fun t => t.scanItems startKey)) l0)
    (hdeeper : Merged (· ≥ ·) (inputs (s.deeperTables.map fun t => t.scanItems startKey)) deeper)
    {key : Bytes} (hstart : ∀ target ∈ startKey, target ≤ key) :
    allOf key (twoMerge l0 deeper) =
      ((s.scannedTable key).bind fun t => firstOf key (t.scanItems startKey)).toList := by
  have hl0Sound : ∀ t ∈ (s.levels 0).reverse, t.Sound := fun t ht =>
    hsound 0 t (List.mem_reverse.mp ht)
  have hfirst := firstOf_tables hl0Sound hl0 hstart
  have hsecond := firstOf_tables (sound_deeperTables hsound) hdeeper hstart
  rw [List.reverse_reverse] at hfirst
  rw [allOf_twoMerge hl0.sorted_items hdeeper.sorted_items, hl0.allOf_eq, hdeeper.allOf_eq, hfirst,
    hsecond, scannedTable]
  cases htable : (s.levels 0).find? fun t => decide (t.Has key) with
  | none => simp
  | some t =>
      have hin : t ∈ s.levels 0 := List.mem_of_find?_eq_some htable
      have hhas : t.Has key := by simpa using List.find?_some htable
      obtain ⟨item, hitem⟩ := Option.ne_none_iff_exists'.mp fun hnone =>
        ((hsound 0 t hin).firstOf_scanItems_eq_none hstart).mp hnone hhas
      rw [Option.some_or, Option.bind_some, hitem]
      cases hother : (s.deeperTables.reverse.find? fun t => decide (t.Has key)).bind fun t =>
          firstOf key (t.scanItems startKey) with
      | none => exact twoMerge_nil_right _
      | some other =>
          -- both are versions of the key at timestamp 0
          obtain ⟨t', _, hother⟩ := Option.bind_eq_some_iff.mp hother
          obtain ⟨hmem, hdata⟩ := firstOf_eq_some hitem
          obtain ⟨hmem', hdata'⟩ := firstOf_eq_some hother
          have hle : item.1 ≤ other.1 := by
            rw [Key.ext (hdata.trans hdata'.symm) ((SSTable.timestamp_of_mem_scanItems hmem).trans
              (SSTable.timestamp_of_mem_scanItems hmem').symm)]
          exact (twoMerge_singleton (hdata.trans hdata'.symm) []).trans (if_pos hle)

/-- Nothing that a merge of tables gives is below the start. -/
theorem le_of_mem_merged_tables {tables : List SSTable} (hsound : ∀ t ∈ tables, t.Sound)
    {target : Bytes} {out : List Item}
    (h : Merged (· ≥ ·) (inputs (tables.map fun t => t.scanItems (some target))) out) {item : Item}
    (hitem : item ∈ out) : target ≤ item.1.data := by
  obtain ⟨_, hitems, hin⟩ := h.exists_input hitem
  obtain ⟨t, ht, rfl⟩ := List.mem_map.mp hitems
  exact (hsound t ht).le_of_mem_scanItems hin

theorem exists_merges (hsound : ∀ level, ∀ t ∈ s.levels level, t.Sound)
    (startKey : Option Bytes) : ∃ merged, s.Merges startKey merged := by
  have hl0Sound : ∀ t ∈ (s.levels 0).reverse, t.Sound := fun t ht =>
    hsound 0 t (List.mem_reverse.mp ht)
  have hdeeperSound := sound_deeperTables hsound
  have hmemtable : Sorted (s.memtable.scanItems startKey) :=
    (s.memtable.sorted_scanItems startKey).imp le_of_lt
  obtain ⟨imms, himms, himmsMerged⟩ := s.exists_merged_immutables startKey
  obtain ⟨l0, hl0, hl0Merged⟩ := exists_merged_tables hl0Sound startKey
  obtain ⟨deeper, hdeeper, hdeeperMerged⟩ := exists_merged_tables hdeeperSound startKey
  -- the two halves come sorted, and so does their merge
  have hmemtables : Sorted (twoMerge (s.memtable.scanItems startKey) imms) :=
    sorted_twoMerge hmemtable himmsMerged.sorted_items
  have htables : Sorted (twoMerge l0 deeper) :=
    sorted_twoMerge hl0Merged.sorted_items hdeeperMerged.sorted_items
  refine ⟨twoMerge (twoMerge (s.memtable.scanItems startKey) imms) (twoMerge l0 deeper), ?_, ?_,
    ?_, ?_⟩
  · exact TwoMergeIterator.yields_new
      (TwoMergeIterator.yields_new (yields_memtableIterator s.memtable startKey) himms)
      (TwoMergeIterator.yields_new hl0 hdeeper)
  · exact sorted_twoMerge hmemtables htables
  · rintro target rfl item hitem
    rcases mem_or_mem_of_mem_twoMerge hitem with hitem | hitem
    · rcases mem_or_mem_of_mem_twoMerge hitem with hitem | hitem
      · exact MemTable.le_of_mem_scanItems hitem
      · obtain ⟨_, hitems, hin⟩ := himmsMerged.exists_input hitem
        obtain ⟨m, _, rfl⟩ := List.mem_map.mp (List.mem_reverse.mp hitems)
        exact MemTable.le_of_mem_scanItems hin
    · rcases mem_or_mem_of_mem_twoMerge hitem with hitem | hitem
      · exact le_of_mem_merged_tables hl0Sound hl0Merged hitem
      · exact le_of_mem_merged_tables hdeeperSound hdeeperMerged hitem
  · intro key hstart
    rw [allOf_twoMerge hmemtables htables, allOf_twoMerge hmemtable himmsMerged.sorted_items,
      himmsMerged.allOf_eq, firstOf_immutables himmsMerged,
      allOf_levels hsound hl0Merged hdeeperMerged hstart, scannedOf]

/-- Of keys below the start a merge has nothing. -/
theorem Merges.allOf_eq_nil {first key : Bytes} {merged : List Item}
    (h : s.Merges (some first) merged) (hlt : key < first) : Crabstash.allOf key merged = [] := by
  apply Crabstash.allOf_eq_nil
  rintro item hitem rfl
  exact hlt.not_ge (h.start_le first rfl item hitem)

/-- Of keys from the start on, what `scannedOf` says. -/
theorem Merges.allOf_of_le {first key : Bytes} {merged : List Item}
    (h : s.Merges (some first) merged) (hle : first ≤ key) :
    Crabstash.allOf key merged = s.scannedOf (some first) key := by
  apply h.allOf
  intro target htarget
  rwa [← Option.some.inj htarget]

/-! ## What a range scan yields -/

/-- Of every key within the bounds a range scan has what its merge has, and of other keys
nothing. -/
theorem Merges.exists_ranged (start last : Bound) {merged : List Item}
    (h : s.Merges start.startKey merged) : ∃ ranged part, s.scanRange start last = .ok ranged ∧
      Yields ranged part ∧ Sorted part ∧ ∀ key, Crabstash.allOf key part =
        if Within start last key then s.scannedOf start.startKey key else [] := by
  have hbounded := BoundedIterator.yields_new h.yields last
  rw [h.sorted.takeWhile_admits] at hbounded
  set bounded := merged.filter fun item => last.admits item.1.data
  have hsorted : Sorted bounded := h.sorted.filter _
  have hcut : ∀ key, Crabstash.allOf key bounded =
      if last.admits key = true then Crabstash.allOf key merged else [] := fun key =>
    allOf_filter last.admits key merged
  unfold scanRange buildScanIterator
  cases start with
  | unbounded =>
      refine ⟨_, bounded, rfl, hbounded, hsorted, fun key => ?_⟩
      rw [hcut, h.allOf key fun _ htarget => absurd htarget (Option.not_mem_none _)]
      simp [Within, Bound.admitsFrom]
  | included first =>
      refine ⟨_, bounded, rfl, hbounded, hsorted, fun key => ?_⟩
      rw [hcut]
      by_cases hle : first ≤ key
      · rw [Merges.allOf_of_le h hle]
        simp [Within, Bound.admitsFrom, Bound.startKey, hle]
      · rw [Merges.allOf_eq_nil h (not_le.mp hle)]
        simp [Within, Bound.admitsFrom, hle]
  | excluded first =>
      obtain ⟨ranged, hskip, hyields⟩ := yields_skipExcluded hbounded first hbounded.length_le
      have hstart : ∀ item ∈ bounded, first ≤ item.1.data := fun item hitem =>
        h.start_le first rfl item (List.mem_of_mem_filter hitem)
      refine ⟨ranged, dropKey first bounded, hskip, hyields, hsorted.dropKey first, fun key => ?_⟩
      rw [allOf_dropKey hsorted hstart, hcut]
      -- the start itself is among what the seek leaves, and is skipped
      rcases lt_trichotomy first key with hlt | rfl | hgt
      · rw [Merges.allOf_of_le h hlt.le]
        simp [Within, Bound.admitsFrom, Bound.startKey, hlt, hlt.ne']
      · simp [Within, Bound.admitsFrom]
      · rw [Merges.allOf_eq_nil h hgt]
        simp [Within, Bound.admitsFrom, hgt.not_gt]

end Lsm

/-- Two lists in order have the same pairs if and only if they have the same values of every
key. -/
theorem map_pairOf_eq_iff {items items' : List Item} (hsorted : Sorted items)
    (hsorted' : Sorted items') : items.map pairOf = items'.map pairOf ↔
      ∀ key, (allOf key items).map Prod.snd = (allOf key items').map Prod.snd := by
  have hgroup : ∀ (key : Bytes) (l : List Item),
      ((l.map pairOf).filter fun pair => decide (pair.1 = key)) = (allOf key l).map pairOf :=
    fun key l => List.filter_map ..
  have hpairs : ∀ (key : Bytes) (l : List Item),
      (allOf key l).map pairOf = ((allOf key l).map Prod.snd).map fun value => (key, value) := by
    intro key l
    rw [List.map_map]
    apply List.map_congr_left
    intro item hitem
    exact Prod.ext (mem_allOf.mp hitem).2 rfl
  constructor
  · intro hsame key
    have hvalues : ∀ l : List Item, (allOf key l).map Prod.snd =
        ((l.map pairOf).filter fun pair => decide (pair.1 = key)).map Prod.snd := by
      intro l
      rw [hgroup, List.map_map]
      rfl
    rw [hvalues, hvalues, hsame]
  · intro hsame
    refine Groups.eq_of_filter_key (fun pair : Bytes × Option Bytes => pair.1) ?_ ?_ fun key => ?_
    · exact List.pairwise_map.mpr (hsorted.imp Key.data_le_of_le)
    · exact List.pairwise_map.mpr (hsorted'.imp Key.data_le_of_le)
    · have hvalues : ((items.map pairOf).filter fun pair => decide (pair.1 = key)) =
          (items'.map pairOf).filter fun pair => decide (pair.1 = key) := by
        rw [hgroup, hgroup, hpairs, hpairs, hsame]
      convert hvalues

namespace Lsm

/-! ## What the seek leaves of the start key -/

/-- The newest version of a key in the immutable memtables. -/
def newestImmutable (s : Lsm) (key : Bytes) : Option Item :=
  (s.immutableMemtables.filterMap fun m => (m.versionsOf key).head?).argmin Prod.fst

/-- The newest of those versions that are the oldest in their immutable memtable. -/
def oldestImmutable (s : Lsm) (key : Bytes) : Option Item :=
  (s.immutableMemtables.filterMap fun m => (m.versionsOf key).getLast?).argmin Prod.fst

/-- The seek leaves the values of a key that immutable memtables have too: `newest` is the newest
version in these, `left` the one that the seek leaves, and `versions` are those of the active
memtable. -/
def LeavesValues (versions : List Item) (newest left : Item) : Prop :=
  match versions with
  | [] => left.2 = newest.2
  | [a] => a.1 ≤ newest.1 ∨ left.1 < a.1 ∧ left.2 = newest.2
  | [a, z] => a.1 ≤ newest.1 ∧ left.1 < z.1 ∧ left.2 = a.2
  | _ => False

/-- A seek to the key leaves the values that the full scan has of it.  Of a key that only the
active memtable has this is so for a single version; of one that only the tables have, if the last
block with the key begins with the newest one. -/
def SeekKeeps (s : Lsm) (key : Bytes) : Prop :=
  match s.newestImmutable key, s.oldestImmutable key with
  | some newest, some left => LeavesValues (s.memtable.versionsOf key) newest left
  | _, _ =>
      match s.memtable.versionsOf key with
      | [] => ∀ t ∈ s.scannedTable key, (lastCut key t.blocks).map Prod.snd = t.newest key
      | [_] => True
      | _ => False

section

variable {s : Lsm} {key : Bytes}

theorem fromImmutables_none (s : Lsm) (key : Bytes) :
    s.fromImmutables none key = s.newestImmutable key := by
  unfold fromImmutables newestImmutable
  congr 2
  funext m
  exact firstOf_eq_head? key m.iter

theorem fromImmutables_start (s : Lsm) (key : Bytes) :
    s.fromImmutables (some key) key = s.oldestImmutable key := by
  unfold fromImmutables oldestImmutable
  congr 2
  funext m
  show firstOf key (m.itemsFrom key) = _
  rw [firstOf_eq_head?, m.allOf_itemsFrom]
  cases (m.versionsOf key).getLast? <;> rfl

/-- What comes out of the memtables hides the tables. -/
theorem twoMerge_table {above : List Item} {y : Option Item}
    (habove : ∀ item ∈ above, item.1.data = key)
    (hy : ∀ item ∈ y, item.1.data = key ∧ item.1.timestamp = 0) :
    twoMerge above y.toList = if above = [] then y.toList else above := by
  cases above with
  | nil => rw [twoMerge_nil_left, if_pos rfl]
  | cons first rest =>
      rw [if_neg (List.cons_ne_nil _ _)]
      cases y with
      | none => exact twoMerge_nil_right _
      | some item =>
          obtain ⟨hdata, hts⟩ := hy item rfl
          have hsame : first.1.data = item.1.data :=
            (habove first (List.mem_cons_self ..)).trans hdata.symm
          have hle : first.1 ≤ item.1 :=
            Key.le_iff.mpr (Or.inr ⟨hsame, hts ▸ Nat.zero_le _⟩)
          exact (twoMerge_singleton hsame rest).trans (if_pos hle)

theorem data_of_fromImmutables {startKey : Option Bytes} {item : Item}
    (hitem : item ∈ s.fromImmutables startKey key) : item.1.data = key := by
  have hmem := List.argmin_mem hitem
  obtain ⟨m, _, hfirst⟩ := List.mem_filterMap.mp hmem
  exact (firstOf_eq_some hfirst).2

/-- What a scan has of a key: that of the memtables, and otherwise that of the tables. -/
theorem scannedOf_eq (s : Lsm) (startKey : Option Bytes) (key : Bytes) :
    s.scannedOf startKey key =
      if twoMerge (Crabstash.allOf key (s.memtable.scanItems startKey))
          (s.fromImmutables startKey key).toList = [] then
        ((s.scannedTable key).bind fun t => firstOf key (t.scanItems startKey)).toList
      else twoMerge (Crabstash.allOf key (s.memtable.scanItems startKey))
        (s.fromImmutables startKey key).toList := by
  apply twoMerge_table
  · intro item hitem
    rcases mem_or_mem_of_mem_twoMerge hitem with hitem | hitem
    · exact (mem_allOf.mp hitem).2
    · exact data_of_fromImmutables (Option.mem_toList.mp hitem)
  · intro item hitem
    obtain ⟨t, _, hfirst⟩ := Option.bind_eq_some_iff.mp hitem
    obtain ⟨hmem, hdata⟩ := firstOf_eq_some hfirst
    exact ⟨hdata, SSTable.timestamp_of_mem_scanItems hmem⟩

theorem sound_scannedTable (hsound : ∀ level, ∀ t ∈ s.levels level, t.Sound) {t : SSTable}
    (ht : s.scannedTable key = some t) : t.Sound := by
  rcases Option.or_eq_some_iff.mp ht with ht | ⟨_, ht⟩
  · exact hsound 0 t (List.mem_of_find?_eq_some ht)
  · exact sound_deeperTables hsound t (List.mem_reverse.mp (List.mem_of_find?_eq_some ht))

/-- Beyond the start a scan has what the full scan has. -/
theorem scannedOf_of_lt (hsound : ∀ level, ∀ t ∈ s.levels level, t.Sound) {target : Bytes}
    (hlt : target < key) : s.scannedOf (some target) key = s.scannedOf none key := by
  have hmemtable : ∀ m : MemTable, Crabstash.allOf key (m.scanItems (some target)) =
      Crabstash.allOf key (m.scanItems none) := fun m => m.allOf_itemsFrom_of_lt hlt
  have himm : s.fromImmutables (some target) key = s.fromImmutables none key := by
    unfold fromImmutables
    congr 2
    funext m
    rw [firstOf_eq_head?, hmemtable, firstOf_eq_head?]
  have htable : ((s.scannedTable key).bind fun t => firstOf key (t.scanItems (some target))) =
      (s.scannedTable key).bind fun t => firstOf key (t.scanItems none) := by
    cases ht : s.scannedTable key with
    | none => rfl
    | some t => exact (sound_scannedTable hsound ht).firstOf_entriesFrom_of_lt hlt
  rw [scannedOf, scannedOf, hmemtable, himm, htable]

/-- Both are there when an immutable memtable has the key. -/
theorem newestImmutable_eq_none_iff (s : Lsm) (key : Bytes) :
    s.newestImmutable key = none ↔ s.oldestImmutable key = none := by
  unfold newestImmutable oldestImmutable
  rw [List.argmin_eq_none, List.argmin_eq_none, List.filterMap_eq_nil_iff,
    List.filterMap_eq_nil_iff]
  simp only [List.head?_eq_none_iff, List.getLast?_eq_none_iff]

theorem newestImmutable_le {newest oldest : Item} (hnewest : s.newestImmutable key = some newest)
    (holdest : s.oldestImmutable key = some oldest) : newest.1 ≤ oldest.1 := by
  obtain ⟨m, hm, hlast⟩ := List.mem_filterMap.mp (List.argmin_mem holdest)
  have hsorted := m.versionsOf_sorted key
  cases hversions : m.versionsOf key with
  | nil =>
      rw [hversions] at hlast
      contradiction
  | cons first rest =>
      rw [hversions] at hlast hsorted
      have hfirst : first ∈ s.immutableMemtables.filterMap fun m => (m.versionsOf key).head? :=
        List.mem_filterMap.mpr ⟨m, hm, by rw [hversions]; rfl⟩
      have hle : first.1 ≤ oldest.1 := by
        rcases List.mem_cons.mp (List.mem_of_getLast? hlast) with rfl | hin
        · exact le_rfl
        · exact ((List.pairwise_cons.mp hsorted).1 oldest hin).le
      exact (List.le_of_mem_argmin hfirst hnewest).trans hle

/-- With nothing in the memtables, the values are those of one table. -/
theorem table_values_iff (hsound : ∀ level, ∀ t ∈ s.levels level, t.Sound) (key : Bytes) :
    ((s.scannedTable key).bind fun t => firstOf key (t.scanItems (some key))).toList.map Prod.snd =
        ((s.scannedTable key).bind fun t => firstOf key (t.scanItems none)).toList.map Prod.snd ↔
      ∀ t ∈ s.scannedTable key, (lastCut key t.blocks).map Prod.snd = t.newest key := by
  cases ht : s.scannedTable key with
  | none => simp
  | some t =>
      have hseek : (firstOf key (t.scanItems (some key))).toList.map Prod.snd =
          ((lastCut key t.blocks).map Prod.snd).toList := by
        show (firstOf key ((t.entriesFrom key).map SSTableIterator.itemOf)).toList.map _ = _
        rw [(sound_scannedTable hsound ht).firstOf_entriesFrom, ← Option.toList_map, Option.map_map]
        rfl
      have hfull : (firstOf key (t.scanItems none)).toList.map Prod.snd =
          (t.newest key).toList := by
        show (firstOf key (SSTableIterator.items t)).toList.map _ = _
        rw [SSTableIterator.firstOf_items, ← Option.toList_map, Option.map_map]
        rfl
      rw [Option.bind_some, Option.bind_some, hseek, hfull]
      simp only [Option.mem_some_iff, forall_eq']
      refine ⟨fun hsame => ?_, congrArg Option.toList⟩
      have hhead := congrArg List.head? hsame
      rwa [Option.head?_toList, Option.head?_toList] at hhead

/-- The versions in the memtables, where an immutable one has the key: all of those in `versions`
with `b`, and the last of them with `left`. -/
theorem memtable_values_iff {versions : List Item} {b left : Item}
    (hdata : ∀ item ∈ versions, item.1.data = key) (hb : b.1.data = key) (hleft : left.1.data = key)
    (hle : b.1 ≤ left.1) :
    (twoMerge versions.getLast?.toList [left]).map Prod.snd =
        (twoMerge versions [b]).map Prod.snd ↔ LeavesValues versions b left := by
  have hlast : ∀ z ∈ versions, twoMerge [z] [left] =
      if z.1 ≤ left.1 then [z] else [left, z] := fun z hz =>
    twoMerge_singleton ((hdata z hz).trans hleft.symm) []
  have hall : ∀ a rest, versions = a :: rest → twoMerge (a :: rest) [b] =
      if a.1 ≤ b.1 then a :: rest else b :: a :: rest := by
    rintro a rest rfl
    exact twoMerge_singleton ((hdata a (List.mem_cons_self ..)).trans hb.symm) rest
  unfold LeavesValues
  -- none, one or two versions, as the last of them and `b` compare
  rcases versions with _ | ⟨a, _ | ⟨z, _ | ⟨y, rest⟩⟩⟩
  · simp
  · have hseek := hlast a (List.mem_singleton_self _)
    rw [hall a [] rfl, List.getLast?_singleton, Option.toList_some, hseek]
    by_cases hfirst : a.1 ≤ b.1
    · simp [hfirst, hfirst.trans hle]
    · by_cases holder : a.1 ≤ left.1
      · simp [hfirst, holder, holder.not_gt]
      · simp [hfirst, holder, not_le.mp holder]
  · have hseek := hlast z (by simp)
    rw [hall a [z] rfl, List.getLast?_cons_cons, List.getLast?_singleton, Option.toList_some, hseek]
    by_cases hfirst : a.1 ≤ b.1
    · by_cases holder : z.1 ≤ left.1
      · simp [hfirst, holder, holder.not_gt]
      · simp [hfirst, holder, not_le.mp holder]
    · by_cases holder : z.1 ≤ left.1
      · simp [hfirst, holder]
      · simp [hfirst, holder]
  · -- three versions at least, of which one is left
    rw [iff_false, hall a _ rfl]
    intro hsame
    have hlength := congrArg List.length hsame
    have hseek := length_twoMerge_le (a :: z :: y :: rest).getLast?.toList [left]
    have hone : (a :: z :: y :: rest).getLast?.toList.length ≤ 1 := Option.length_toList_le
    rw [apply_ite (List.map Prod.snd)] at hlength
    split at hlength
    · simp only [List.length_map, List.length_cons, List.length_nil] at hlength hseek
      omega
    · simp only [List.length_map, List.length_cons, List.length_nil] at hlength hseek
      omega

/-- **The seek to a key keeps its values** just when `SeekKeeps` says so. -/
theorem seekKeeps_iff (hsound : ∀ level, ∀ t ∈ s.levels level, t.Sound) (key : Bytes) :
    (s.scannedOf (some key) key).map Prod.snd = (s.scannedOf none key).map Prod.snd ↔
      s.SeekKeeps key := by
  have hversions : Crabstash.allOf key (s.memtable.scanItems none) = s.memtable.versionsOf key := rfl
  have holdest : Crabstash.allOf key (s.memtable.scanItems (some key)) =
      (s.memtable.versionsOf key).getLast?.toList := s.memtable.allOf_itemsFrom key
  have hdata : ∀ item ∈ s.memtable.versionsOf key, item.1.data = key := fun item hitem =>
    (mem_allOf.mp hitem).2
  have hnone := s.newestImmutable_eq_none_iff key
  rw [scannedOf_eq, scannedOf_eq, hversions, holdest, fromImmutables_none, fromImmutables_start]
  unfold SeekKeeps
  cases hnewest : s.newestImmutable key with
  -- without an immutable memtable the tables stand alone
  | none =>
      rw [hnone.mp hnewest, Option.toList_none, twoMerge_nil_right, twoMerge_nil_right]
      rcases s.memtable.versionsOf key with _ | ⟨a, _ | ⟨z, _ | ⟨y, rest⟩⟩⟩
      · simpa using table_values_iff hsound key
      · simp
      · simp
      -- three versions or more, of which a seek leaves one
      · rw [iff_false, if_neg (by simp), if_neg (by simp)]
        intro hsame
        have hlength := congrArg List.length hsame
        have hone : (a :: z :: y :: rest).getLast?.toList.length ≤ 1 := Option.length_toList_le
        simp only [List.length_map, List.length_cons] at hlength
        omega
  | some b =>
      obtain ⟨left, hleft⟩ := Option.ne_none_iff_exists'.mp fun h =>
        Option.some_ne_none b (hnewest.symm.trans (hnone.mpr h))
      have hb : b.1.data = key := by
        rw [← fromImmutables_none] at hnewest
        exact data_of_fromImmutables hnewest
      have hl : left.1.data = key := by
        rw [← fromImmutables_start] at hleft
        exact data_of_fromImmutables hleft
      rw [hleft, Option.toList_some, Option.toList_some, if_neg (twoMerge_singleton_ne_nil _ _),
        if_neg (twoMerge_singleton_ne_nil _ _)]
      exact memtable_values_iff hdata hb hl (newestImmutable_le hnewest hleft)

end

/-! ## Range scans as filters -/

section

variable {s : Lsm}

/-- A range scan filters the full scan if they have the same values of every key within the
bounds. -/
theorem filtersScan_iff_values (hsound : ∀ level, ∀ t ∈ s.levels level, t.Sound)
    (start last : Bound) : s.FiltersScan start last ↔ ∀ key, Within start last key →
      (s.scannedOf start.startKey key).map Prod.snd = (s.scannedOf none key).map Prod.snd := by
  obtain ⟨all, hall⟩ := exists_merges hsound none
  obtain ⟨merged, hmerged⟩ := exists_merges hsound start.startKey
  obtain ⟨full, entries, hscan, hfull, hsorted, hentries⟩ :=
    Merges.exists_ranged .unbounded .unbounded hall
  obtain ⟨ranged, part, hrange, hpart, hsorted', hkeys⟩ := hmerged.exists_ranged start last
  have hfilter : (part.map pairOf = (entries.map pairOf).filter fun pair =>
      decide (Within start last pair.1)) ↔ ∀ key, Within start last key →
        (s.scannedOf start.startKey key).map Prod.snd = (s.scannedOf none key).map Prod.snd := by
    rw [List.filter_map]
    show part.map pairOf =
      (entries.filter fun item => decide (Within start last item.1.data)).map pairOf ↔ _
    rw [map_pairOf_eq_iff hsorted' (hsorted.filter _)]
    refine forall_congr' fun key => ?_
    have hevery : Within .unbounded .unbounded key := ⟨rfl, rfl⟩
    rw [allOf_filter fun data => decide (Within start last data), hkeys, hentries, if_pos hevery]
    by_cases hwithin : Within start last key
    · rw [if_pos hwithin, if_pos (decide_eq_true hwithin)]
      exact (imp_iff_right hwithin).symm
    · rw [if_neg hwithin, if_neg (by simpa using hwithin)]
      exact iff_of_true rfl fun h => absurd h hwithin
  rw [← hfilter]
  constructor
  · rintro ⟨full', entries', ranged', part', hscan', hfull', hrange', hpart', hsame⟩
    obtain rfl := Except.ok.inj (hscan.symm.trans hscan')
    obtain rfl := Except.ok.inj (hrange.symm.trans hrange')
    rwa [hfull.unique hfull', hpart.unique hpart']
  · intro hsame
    exact ⟨full, entries, ranged, part, hscan, hfull, hrange, hpart, hsame⟩

/-- Only an included start makes a difference. -/
theorem filtersScan_iff_seekKeeps (hsound : ∀ level, ∀ t ∈ s.levels level, t.Sound)
    (start last : Bound) : s.FiltersScan start last ↔
      ∀ key, start = .included key → last.admits key = true → s.SeekKeeps key := by
  rw [filtersScan_iff_values hsound]
  constructor
  · rintro hvalues key rfl hadmits
    rw [← seekKeeps_iff hsound]
    exact hvalues key ⟨decide_eq_true le_rfl, hadmits⟩
  · rintro hkeeps key ⟨hfrom, hadmits⟩
    cases start with
    | unbounded => rfl
    | included first =>
        have hle : first ≤ key := of_decide_eq_true hfrom
        rcases hle.lt_or_eq with hlt | rfl
        · exact congrArg _ (scannedOf_of_lt hsound hlt)
        · exact (seekKeeps_iff hsound first).mpr (hkeeps first rfl hadmits)
    | excluded first =>
        have hlt : first < key := of_decide_eq_true hfrom
        exact congrArg _ (scannedOf_of_lt hsound hlt)

end
end Lsm

namespace Database

/-- **Range scans and the full scan.**  After any run of threads, compactions and sessions, and for
any bounds, a scan over a range yields the entries of the full scan within the bounds if and only if
the seek to its start keeps the values of the start key, or the range is without its start. -/
theorem filtersScan_iff (memtableSize : ℕ) (steps : List DatabaseStep) (start last : Bound)
    {s : Lsm} (hopen : (run step (create memtableSize) steps).lsm.openTables = .ok s) :
    s.FiltersScan start last ↔
      ∀ key, start = .included key → last.admits key = true → s.SeekKeeps key :=
  Lsm.filtersScan_iff_seekKeeps
    ((tablesSound_run memtableSize steps).lsm.openTables hopen) start last

/-- Two flushes, the second with a newer version of a key, and a third key in the memtable. -/
def twoTables : List DatabaseStep :=
  [.thread (.draw (.put [1] [10])), .thread (.finish 0 noFaults),
    .thread (.draw (.put [2] [20])), .thread (.finish 1 noFaults),
    .thread (.draw (.put [1] [11])), .thread (.finish 2 noFaults),
    .thread (.draw (.put [3] [30])), .thread (.finish 3 noFaults),
    .thread (.draw (.put [2] [21])), .thread (.finish 4 noFaults)]

theorem filtersScan_iff_twoTables :
    ∃ s, (run step (create 3) twoTables).lsm.openTables = .ok s ∧ (s.levels 0).length = 2 ∧
      s.FiltersScan (.included [1]) (.included [2]) := by
  refine ⟨_, rfl, by decide +kernel, ?_⟩
  refine (filtersScan_iff 3 twoTables (.included [1]) (.included [2]) rfl).mpr ?_
  intro key hkey _
  obtain rfl := Bound.included.inj hkey
  -- of the two tables that have the key the scan takes the older one, which has it in one block
  show ∀ t ∈ Lsm.scannedTable _ [1], (lastCut [1] t.blocks).map Prod.snd = t.newest [1]
  decide +kernel

/-- A key is written twice into the memtable, another one once. -/
def twoVersions : List DatabaseStep :=
  [.thread (.draw (.put [1] [10])), .thread (.finish 0 noFaults),
    .thread (.draw (.put [1] [11])), .thread (.finish 1 noFaults),
    .thread (.draw (.put [2] [20])), .thread (.finish 2 noFaults)]

/-- Both versions come out of the full scan, and only the older one of the scan from the key on. -/
theorem not_filtersScan_twoVersions :
    ∃ s, (run step (create 100) twoVersions).lsm.openTables = .ok s ∧
      ¬ s.FiltersScan (.included [1]) .unbounded := by
  refine ⟨_, rfl, ?_⟩
  rw [Lsm.filtersScan_iff_seekKeeps (Lsm.TablesSound.openTables
    (tablesSound_run 100 twoVersions).lsm rfl)]
  intro hkeeps
  exact hkeeps [1] rfl rfl

end Database
end Crabstash

import Mathlib.Data.List.Pairwise
import Mathlib.Data.List.TakeWhile
import Crabstash.Storage.ScanFrom

/-!
# Scans and point reads

In one session a scan and the point reads agree when three things hold of the
state that is scanned (`ScanOk`).

The merge of the memtable with the tables does not drop the older versions of a
key in the memtable, so a key that has a value must not have any.  The merge of level 0 breaks ties
in favour of the largest index, which is the oldest table, so a key that is not
in the memtable must be in one table only, and there in one block, for
`SSTable.get` to find it.  And collecting stops at the first tombstone, so the
deleted keys must lie above the others.

Without the first, a key comes out twice; without the second, its old value comes
out; without the third, keys are missing (`collect_scan_missing`).
-/

namespace Crabstash

open Run StorageIterator

namespace Lsm

/-- All keys with a version somewhere. -/
def storedKeys (s : Lsm) : List Bytes :=
  s.memtable.iter.map (fun e => e.1.data) ++ ((s.levels 0).flatMap SSTable.entries).map Prod.fst

/-- The newest version of a key, which may be a tombstone. -/
def latest (s : Lsm) (key : Bytes) : Option (Option Bytes) :=
  (s.memtable.newest key).or ((s.levels 0).reverse.findSome? fun t => t.newest key)

/-- A state in which a scan and the point reads agree. -/
structure ScanOk (s : Lsm) : Prop where
  /-- A key in the memtable that is not deleted has one version there. -/
  single : ∀ e ∈ s.memtable.iter, ∀ e' ∈ s.memtable.iter, e.1.data = e'.1.data →
    s.memtable.newest e.1.data = some none ∨ e = e'
  /-- A key that is only in tables is in one of them. -/
  apart : (s.levels 0).Pairwise fun t t' => ∀ e ∈ t.entries,
    s.memtable.newest e.1 = none → ¬ t'.Has e.1
  /-- Its versions are in one block. -/
  unsplit : ∀ t ∈ s.levels 0, ∀ e ∈ t.entries, s.memtable.newest e.1 = none → t.Unsplit e.1
  /-- A deleted key is above every key that has a value. -/
  deletedLast : ∀ key ∈ s.storedKeys, s.latest key = some none →
    ∀ key' ∈ s.storedKeys, s.latest key' = some none ∨ key' < key

instance (s : Lsm) : Decidable s.ScanOk :=
  decidable_of_iff
    ((∀ e ∈ s.memtable.iter, ∀ e' ∈ s.memtable.iter, e.1.data = e'.1.data →
        s.memtable.newest e.1.data = some none ∨ e = e') ∧
      ((s.levels 0).Pairwise fun t t' => ∀ e ∈ t.entries,
        s.memtable.newest e.1 = none → ¬ t'.Has e.1) ∧
      (∀ t ∈ s.levels 0, ∀ e ∈ t.entries, s.memtable.newest e.1 = none → t.Unsplit e.1) ∧
      ∀ key ∈ s.storedKeys, s.latest key = some none →
        ∀ key' ∈ s.storedKeys, s.latest key' = some none ∨ key' < key)
    ⟨fun h => ⟨h.1, h.2.1, h.2.2.1, h.2.2.2⟩, fun h => ⟨h.1, h.2, h.3, h.4⟩⟩

/-! ## What a scan yields -/

/-- A scan yields the memtable merged with the merge of the tables of level 0. -/
theorem OneSession.yields_scan {s : Lsm} (h : s.OneSession) :
    ∃ it tables, s.scan = .ok it ∧ Yields it (twoMerge s.memtable.iter tables) ∧
      Merged (· ≥ ·) (inputs ((s.levels 0).reverse.map SSTableIterator.items)) tables := by
  obtain ⟨tables, hfull, hmerged⟩ := h.yields_merge none
  have hbounded := BoundedIterator.yields_new hfull .unbounded
  have hall : (twoMerge s.memtable.iter tables).takeWhile (fun item =>
      Bound.unbounded.admits item.1.data) = twoMerge s.memtable.iter tables := by
    apply List.takeWhile_eq_self_iff.mpr
    intro item _
    rfl
  rw [MemTable.scanItems, hall] at hbounded
  exact ⟨_, tables, rfl, hbounded, hmerged⟩

/-! ## What it says of a key -/

theorem get_eq_none_of_not_has {s : Lsm} (h : s.OneSession) {t : SSTable} (ht : t ∈ s.levels 0)
    {key : Bytes} (hnot : ¬ t.Has key) : t.get key = none := by
  apply (h.tables t ht).1.get_eq_none
  intro e he heq
  exact hnot ⟨e, he, heq⟩

theorem OneSession.probe_eq {s : Lsm} (h : s.OneSession) (key : Bytes) :
    probe s.levels key = (s.levels 0).reverse.findSome? fun t => t.get key := by
  have hrange : List.range 7 = 0 :: List.range' 1 6 := rfl
  have hdeeper : (List.range' 1 6).findSome? (fun level =>
      (s.levels level).reverse.findSome? fun t => t.get key) = none := by
    rw [List.findSome?_eq_none_iff]
    intro level hlevel
    have hne : level ≠ 0 := by
      have := (List.mem_range'_1.mp hlevel).1
      omega
    rw [h.deeper level hne]
    rfl
  rw [probe, hrange, List.findSome?_cons, hdeeper]
  cases (s.levels 0).reverse.findSome? fun t => t.get key <;> rfl

theorem OneSession.get_eq {s : Lsm} (h : s.OneSession) (key : Bytes) :
    s.get key = (s.memtable.newest key).getD (probe s.levels key) := by
  rw [Lsm.get, getAtTs_eq_newest h.immutableMemtables, newest_eq h.immutableMemtables]
  intro e he _
  exact (h.below e he).le

/-- Two tables that both have a key which is not in the memtable are the same. -/
theorem ScanOk.eq_of_has {s : Lsm} (hok : s.ScanOk) {key : Bytes}
    (hmem : s.memtable.newest key = none) {t t' : SSTable} (ht : t ∈ s.levels 0)
    (ht' : t' ∈ s.levels 0) (hhas : t.Has key) (hhas' : t'.Has key) : t = t' := by
  by_contra hne
  have hpair : (s.levels 0).Pairwise fun u u' => ¬ (u.Has key ∧ u'.Has key) := by
    apply hok.apart.imp
    rintro u u' happart ⟨⟨e, he, rfl⟩, hhas'⟩
    exact happart e he hmem hhas'
  have hsymm : Std.Symm fun u u' : SSTable => ¬ (u.Has key ∧ u'.Has key) :=
    ⟨fun u u' hnot hboth => hnot hboth.symm⟩
  exact hpair.forall ht ht' hne ⟨hhas, hhas'⟩

/-- A key that is in tables only is in one, and there its newest version is found. -/
theorem ScanOk.exists_table {s : Lsm} (hok : s.ScanOk) (h : s.OneSession) {key : Bytes}
    (hmem : s.memtable.newest key = none) {t : SSTable} (ht : t ∈ s.levels 0) (hhas : t.Has key) :
    s.latest key = t.newest key ∧ s.get key = (t.newest key).join := by
  have hothers : ∀ t' ∈ s.levels 0, t' ≠ t → ¬ t'.Has key := by
    intro t' ht' hne hhas'
    exact hne (hok.eq_of_has hmem ht' ht hhas' hhas)
  have hreverse : t ∈ (s.levels 0).reverse := List.mem_reverse.mpr ht
  constructor
  · rw [latest, hmem, Option.none_or]
    apply SSTable.findSome?_of_only hreverse
    intro t' ht' hne
    exact SSTable.newest_eq_none (hothers t' (List.mem_reverse.mp ht') hne)
  · obtain ⟨e, he, rfl⟩ := hhas
    have hholds := (h.tables t ht).1
    have hsorted := (h.tables t ht).2
    rw [h.get_eq, hmem, Option.getD_none, h.probe_eq,
      SSTable.findSome?_of_only hreverse, hholds.get_eq hsorted (hok.unsplit t ht e he hmem),
      SSTable.newest]
    · cases t.entries.find? fun e' => decide (e'.1 = e.1) <;> rfl
    · intro t' ht' hne
      have ht' := List.mem_reverse.mp ht'
      exact get_eq_none_of_not_has h ht' (hothers t' ht' hne)

/-- A point read returns the newest version. -/
theorem ScanOk.get_eq_latest {s : Lsm} (hok : s.ScanOk) (h : s.OneSession) (key : Bytes) :
    s.get key = (s.latest key).join := by
  cases hmem : s.memtable.newest key with
  | some value =>
      rw [h.get_eq, latest, hmem]
      rfl
  | none =>
      by_cases hhas : ∃ t ∈ s.levels 0, t.Has key
      · obtain ⟨t, ht, hhas⟩ := hhas
        obtain ⟨hlatest, hget⟩ := hok.exists_table h hmem ht hhas
        rw [hget, hlatest]
      · push Not at hhas
        have hprobe : (s.levels 0).reverse.findSome? (fun t => t.get key) = none := by
          rw [List.findSome?_eq_none_iff]
          intro t ht
          have ht := List.mem_reverse.mp ht
          exact get_eq_none_of_not_has h ht (hhas t ht)
        have hlatest : (s.levels 0).reverse.findSome? (fun t => t.newest key) = none := by
          rw [List.findSome?_eq_none_iff]
          intro t ht
          exact SSTable.newest_eq_none (hhas t (List.mem_reverse.mp ht))
        rw [h.get_eq, h.probe_eq, hprobe, latest, hlatest, hmem]
        rfl

theorem mem_storedKeys {s : Lsm} {key : Bytes} (hlatest : s.latest key ≠ none) :
    key ∈ s.storedKeys := by
  unfold storedKeys
  by_contra hnot
  rw [List.mem_append, not_or] at hnot
  obtain ⟨hmem, htables⟩ := hnot
  apply hlatest
  rw [latest, Option.or_eq_none_iff]
  constructor
  · apply MemTable.newest_eq_none_iff.mpr
    intro e he heq
    exact hmem (List.mem_map.mpr ⟨e, he, heq⟩)
  · rw [List.findSome?_eq_none_iff]
    intro t ht
    apply SSTable.newest_eq_none
    rintro ⟨e, he, heq⟩
    have hflat : e ∈ (s.levels 0).flatMap SSTable.entries :=
      List.mem_flatMap.mpr ⟨t, List.mem_reverse.mp ht, he⟩
    exact htables (List.mem_map.mpr ⟨e, hflat, heq⟩)

/-! ## The two together -/

/-- The merged items of a state: those of the memtable, and for the other keys the one
that the merge of the tables gives. -/
structure Items (s : Lsm) (items : List Item) : Prop where
  sorted : items.Pairwise fun a b => a.1 < b.1
  ofMemtable : ∀ item ∈ s.memtable.iter, item ∈ items
  ofTables : ∀ t ∈ s.levels 0, ∀ e ∈ t.entries, s.memtable.newest e.1 = none →
    ∃ item ∈ items, item.1.data = e.1
  source : ∀ item ∈ items, item ∈ s.memtable.iter ∨ s.memtable.newest item.1.data = none ∧
    ∃ t ∈ s.levels 0, t.newest item.1.data = some item.2
  unique : ∀ item ∈ items, ∀ item' ∈ items, item.1.data = item'.1.data →
    s.memtable.newest item.1.data = none → item = item'

/-- What is in a scan. -/
theorem OneSession.exists_items {s : Lsm} (h : s.OneSession) :
    ∃ it items, s.scan = .ok it ∧ Yields it items ∧ s.Items items := by
  obtain ⟨it, tables, hscan, hyields, hmerged⟩ := h.yields_scan
  have hbest : ∀ item ∈ tables, ∃ t ∈ s.levels 0, t.newest item.1.data = some item.2 ∧
      item.1.timestamp = 0 := by
    intro item hitem
    obtain ⟨i, hfirst, _⟩ := hmerged.best item hitem
    have hne : inputs ((s.levels 0).reverse.map SSTableIterator.items) i ≠ [] := by
      intro hnil
      rw [hnil] at hfirst
      contradiction
    obtain ⟨t, ht, hinput⟩ := List.mem_map.mp (mem_of_inputs_ne_nil hne)
    rw [← hinput, SSTableIterator.firstOf_items, Option.map_eq_some_iff] at hfirst
    obtain ⟨e, he, hitem⟩ := hfirst
    refine ⟨t, List.mem_reverse.mp ht, ?_, ?_⟩
    · rw [SSTable.newest, he, ← hitem]
      rfl
    · rw [← hitem]
      rfl
  -- tables have no timestamps, so the memtable comes first on a tie
  have htie : ∀ a ∈ s.memtable.iter, ∀ b ∈ tables, a.1.data = b.1.data → a.1 ≤ b.1 := by
    intro a _ b hb hdata
    obtain ⟨t, _, _, hzero⟩ := hbest b hb
    exact Key.le_iff.mpr (Or.inr ⟨hdata, hzero ▸ Nat.zero_le _⟩)
  obtain ⟨hsorted, hmem⟩ := twoMerge_spec s.memtable.map.sorted hmerged.sorted htie
  refine ⟨it, twoMerge s.memtable.iter tables, hscan, hyields, hsorted, ?_, ?_, ?_, ?_⟩
  · intro item hitem
    exact (hmem item).mpr (Or.inl hitem)
  · intro t ht e he hnone
    have hinputs : SSTableIterator.items t ∈ (s.levels 0).reverse.map SSTableIterator.items :=
      List.mem_map_of_mem (List.mem_reverse.mpr ht)
    obtain ⟨i, hinput⟩ := exists_inputs_eq hinputs
    have hin : SSTableIterator.itemOf e ∈
        inputs ((s.levels 0).reverse.map SSTableIterator.items) i := by
      rw [hinput]
      exact List.mem_map_of_mem he
    obtain ⟨item, hitem, hdata⟩ := hmerged.complete i _ hin
    have hdata : item.1.data = e.1 := hdata
    refine ⟨item, (hmem item).mpr (Or.inr ⟨hitem, ?_⟩), hdata⟩
    rw [hdata]
    exact MemTable.newest_eq_none_iff.mp hnone
  · intro item hitem
    rcases (hmem item).mp hitem with hitem | ⟨hitem, hnot⟩
    · exact Or.inl hitem
    · obtain ⟨t, ht, hnewest, _⟩ := hbest item hitem
      exact Or.inr ⟨MemTable.newest_eq_none_iff.mpr hnot, t, ht, hnewest⟩
  · intro item hitem item' hitem' hdata hnone
    have hnot := MemTable.newest_eq_none_iff.mp hnone
    have hfrom : ∀ x ∈ twoMerge s.memtable.iter tables, x.1.data = item.1.data → x ∈ tables := by
      intro x hx heq
      rcases (hmem x).mp hx with hx | ⟨hx, _⟩
      · exact absurd heq (hnot x hx)
      · exact hx
    by_contra hne
    -- the merge of the tables has one item a key
    have hdistinct : tables.Pairwise fun a b => a.1.data ≠ b.1.data :=
      hmerged.sorted.imp fun hlt => hlt.ne
    have hsymm : Std.Symm fun a b : Item => a.1.data ≠ b.1.data := ⟨fun _ _ hab => hab.symm⟩
    exact hdistinct.forall (hfrom item hitem rfl) (hfrom item' hitem' hdata.symm) hne hdata

/-- The first item of a key has its newest version. -/
theorem Items.exists_first {s : Lsm} {items : List Item} (h : s.Items items) (hok : s.ScanOk)
    (hsession : s.OneSession) {key : Bytes} {value : Option Bytes}
    (hlatest : s.latest key = some value) : ∃ item ∈ items, item.1.data = key ∧ item.2 = value ∧
      ∀ item' ∈ items, item'.1.data = key → item.1 ≤ item'.1 := by
  cases hmem : s.memtable.newest key with
  | some newest =>
      have hvalue : newest = value := by
        rw [latest, hmem] at hlatest
        exact Option.some.inj hlatest
      subst hvalue
      obtain ⟨ts, hitem, hle⟩ := MemTable.newest_eq_some_iff.mp hmem
      refine ⟨_, h.ofMemtable _ hitem, rfl, rfl, ?_⟩
      intro item' hitem' hdata
      rcases h.source item' hitem' with hiter | ⟨hnone, _⟩
      · exact Key.le_iff.mpr (Or.inr ⟨hdata.symm, hle item' hiter hdata⟩)
      · rw [hdata, hmem] at hnone
        contradiction
  | none =>
      -- the newest version is in a table
      have htable : ∃ t ∈ s.levels 0, t.Has key := by
        by_contra hnot
        push Not at hnot
        have hnone : (s.levels 0).reverse.findSome? (fun t => t.newest key) = none := by
          rw [List.findSome?_eq_none_iff]
          intro t ht
          exact SSTable.newest_eq_none (hnot t (List.mem_reverse.mp ht))
        rw [latest, hmem, hnone] at hlatest
        contradiction
      obtain ⟨t, ht, hhas⟩ := htable
      obtain ⟨e, he, rfl⟩ := hhas
      obtain ⟨item, hitem, hdata⟩ := h.ofTables t ht e he hmem
      have hnone : s.memtable.newest item.1.data = none := hdata ▸ hmem
      refine ⟨item, hitem, hdata, ?_, ?_⟩
      · rcases h.source item hitem with hiter | ⟨_, t', ht', hnewest⟩
        · exact absurd rfl (MemTable.newest_eq_none_iff.mp hnone item hiter)
        · rw [hdata] at hnewest
          have hhas' : t'.Has e.1 := by
            by_contra hnot
            rw [SSTable.newest_eq_none hnot] at hnewest
            contradiction
          have hfound := (hok.exists_table hsession hmem ht' hhas').1
          rw [hlatest, hnewest] at hfound
          exact (Option.some.inj hfound).symm
      · intro item' hitem' hdata'
        rw [h.unique item hitem item' hitem' (hdata.trans hdata'.symm) hnone]

/-- Every item is of a key that has a version. -/
theorem Items.latest_ne_none {s : Lsm} {items : List Item} (h : s.Items items) {item : Item}
    (hitem : item ∈ items) : s.latest item.1.data ≠ none := by
  intro hnone
  obtain ⟨hmem, htables⟩ := Option.or_eq_none_iff.mp hnone
  rcases h.source item hitem with hiter | ⟨_, t, ht, hnewest⟩
  · exact MemTable.newest_eq_none_iff.mp hmem item hiter rfl
  · have hsome := List.findSome?_eq_none_iff.mp htables t (List.mem_reverse.mpr ht)
    rw [hnewest] at hsome
    contradiction

/-- A key that has a value has one item. -/
theorem Items.eq_of_live {s : Lsm} {items : List Item} (h : s.Items items) (hok : s.ScanOk)
    {value : Bytes} {item item' : Item} (hitem : item ∈ items) (hitem' : item' ∈ items)
    (hdata : item.1.data = item'.1.data) (hlive : s.latest item.1.data = some (some value)) :
    item = item' := by
  rcases h.source item hitem with hiter | ⟨hnone, _⟩
  · rcases h.source item' hitem' with hiter' | ⟨hnone', _⟩
    · rcases hok.single item hiter item' hiter' hdata with hdead | heq
      · rw [latest, hdead, Option.some_or] at hlive
        exact absurd (Option.some.inj hlive) (Option.some_ne_none value).symm
      · exact heq
    · rw [← hdata] at hnone'
      exact absurd rfl (MemTable.newest_eq_none_iff.mp hnone' item hiter)
  · exact h.unique item hitem item' hitem' hdata hnone

/-- The items that collecting sees are those of the keys that have a value, each with it. -/
theorem Items.mem_takeWhile_iff {s : Lsm} {items : List Item} (h : s.Items items) (hok : s.ScanOk)
    (hsession : s.OneSession) {item : Item} :
    item ∈ items.takeWhile (fun item => item.2.isSome) ↔
      item ∈ items ∧ s.latest item.1.data = some item.2 ∧ item.2.isSome := by
  rw [Lsm.mem_takeWhile_iff h.sorted]
  constructor
  · rintro ⟨hitem, hbefore⟩
    obtain ⟨value, hlatest⟩ := Option.ne_none_iff_exists'.mp (h.latest_ne_none hitem)
    obtain ⟨first, hfirst, hdata, hvalue, hle⟩ := h.exists_first hok hsession hlatest
    obtain ⟨v, hv⟩ := Option.isSome_iff_exists.mp (hbefore first hfirst (hle item hitem rfl))
    have hlive : s.latest first.1.data = some (some v) := by
      rw [hdata, hlatest, ← hvalue, hv]
    have hsame := h.eq_of_live hok hfirst hitem hdata hlive
    rw [← hsame, hlive, hv]
    exact ⟨hfirst, rfl, rfl⟩
  · rintro ⟨hitem, hlatest, hsome⟩
    obtain ⟨v, hv⟩ := Option.isSome_iff_exists.mp hsome
    refine ⟨hitem, ?_⟩
    intro item' hitem' hle
    have hle := Key.data_le_of_le hle
    have hstored' := h.latest_ne_none hitem'
    have hlive' : s.latest item'.1.data ≠ some none := by
      intro hdead
      -- a deleted key would be above the key of the item
      have hlast := hok.deletedLast _ (mem_storedKeys hstored') hdead _
        (mem_storedKeys (h.latest_ne_none hitem))
      rcases hlast with hdead' | hlt
      · rw [hlatest, hv] at hdead'
        exact absurd (Option.some.inj hdead') (Option.some_ne_none v)
      · exact absurd hle hlt.not_ge
    obtain ⟨value, hvalue⟩ := Option.ne_none_iff_exists'.mp hstored'
    obtain ⟨v', rfl⟩ := Option.ne_none_iff_exists'.mp fun hnone => hlive' (hnone ▸ hvalue)
    obtain ⟨first, hfirst, hdata, hfirstValue, _⟩ := h.exists_first hok hsession hvalue
    have hsame := h.eq_of_live hok hitem' hfirst hdata.symm hvalue
    rw [hsame, hfirstValue]
    rfl

/-- In a session that ends in such a state, collecting a scan gives the pairs that the
point reads give, in order. -/
theorem collect_scan (memtableSize : ℕ) (ops : List Op)
    (hok : (run step (openDir memtableSize Dir.empty) ops).ScanOk) :
    ∃ (it : LsmIterator) (pairs : List (Bytes × Bytes)), (run step (openDir memtableSize Dir.empty) ops).scan = .ok it ∧
      DbIterator.collect it = pairs.map .ok ∧ (pairs.Pairwise fun a b => a.1 < b.1) ∧
      ∀ key value, (key, value) ∈ pairs ↔
        (run step (openDir memtableSize Dir.empty) ops).get key = some value := by
  have hsession := oneSession_run memtableSize ops
  generalize run step (openDir memtableSize Dir.empty) ops = s at hok hsession
  obtain ⟨it, items, hscan, hyields, hitems⟩ := hsession.exists_items
  refine ⟨it, (items.takeWhile fun item => item.2.isSome).map fun item =>
    (item.1.data, item.2.getD []), hscan, ?_, ?_, ?_⟩
  · rw [DbIterator.collect_eq hyields, List.map_map]
    rfl
  · rw [List.pairwise_map]
    apply List.Pairwise.imp_of_mem _ (hitems.sorted.sublist (List.takeWhile_sublist _))
    intro a b ha hb hlt
    obtain ⟨ha, hlatest, hsome⟩ := (hitems.mem_takeWhile_iff hok hsession).mp ha
    obtain ⟨hb, _, _⟩ := (hitems.mem_takeWhile_iff hok hsession).mp hb
    obtain ⟨v, hv⟩ := Option.isSome_iff_exists.mp hsome
    apply lt_of_le_of_ne (Key.data_le_of_le hlt.le)
    intro hdata
    -- two live items of one key are the same item
    rw [hv] at hlatest
    exact hlt.ne (congrArg Prod.fst (hitems.eq_of_live hok ha hb hdata hlatest))
  · intro key value
    rw [hok.get_eq_latest hsession, List.mem_map]
    constructor
    · rintro ⟨item, hitem, hpair⟩
      obtain ⟨_, hlatest, hsome⟩ := (hitems.mem_takeWhile_iff hok hsession).mp hitem
      obtain ⟨v, hv⟩ := Option.isSome_iff_exists.mp hsome
      obtain ⟨rfl, rfl⟩ := Prod.mk.inj hpair
      rw [hlatest, hv]
      rfl
    -- the newest version of the key comes before any tombstone of the scan
    · intro hget
      have hlatest : s.latest key = some (some value) := Option.join_eq_some_iff.mp hget
      obtain ⟨item, hitem, hdata, hvalue, _⟩ := hitems.exists_first hok hsession hlatest
      refine ⟨item, (hitems.mem_takeWhile_iff hok hsession).mpr ⟨hitem, ?_, ?_⟩, ?_⟩
      · rw [hdata, hlatest, hvalue]
      · rw [hvalue]
        rfl
      · rw [hdata, hvalue]
        rfl

/-- A session with a flush, after which a key is overwritten and the last key deleted. -/
theorem collect_scan_flushed :
    (run step (openDir 4 Dir.empty)
      [.put [2] [20], .put [1] [10], .put [2] [21], .delete [4]]).ScanOk ∧
    ∃ (it : LsmIterator) (pairs : List (Bytes × Bytes)), (run step (openDir 4 Dir.empty)
        [.put [2] [20], .put [1] [10], .put [2] [21], .delete [4]]).scan = .ok it ∧
      DbIterator.collect it = pairs.map .ok ∧ (pairs.Pairwise fun a b => a.1 < b.1) ∧
      ∀ key value, (key, value) ∈ pairs ↔ (run step (openDir 4 Dir.empty)
        [.put [2] [20], .put [1] [10], .put [2] [21], .delete [4]]).get key =
          some value :=
  ⟨by decide, collect_scan 4 _ (by decide)⟩

/-- After deleting a key and putting one above it, collecting a scan yields nothing. -/
theorem collect_scan_missing :
    (run step (openDir 100 Dir.empty) [.delete [1], .put [2] [20]]).get [2] = some [20] ∧
    (run step (openDir 100 Dir.empty) [.delete [1], .put [2] [20]]).scan.map DbIterator.collect =
      .ok [] := by
  decide

end Lsm
end Crabstash

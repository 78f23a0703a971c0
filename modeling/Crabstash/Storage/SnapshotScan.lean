import Crabstash.Storage.ScanAgreement
import Crabstash.Storage.SnapshotStability

/-!
# Scans through a snapshot

`SnapshotIterator` of `iterator.rs`, `scan_at_ts` and `Snapshot::scan_range`.

The iterator means to go over the versions that are newer than the snapshot and to stop at the
first that is not.  But it remembers the key of a version that is too new as if it had been
returned, and then takes the older versions for dominated ones.  So of every key it considers the
first version only (`mem_visibleItems`), which is why what a scan meets first is all that
counts.

A scan agrees with the reads through the same snapshot just when three things hold of the
versions in the memtable and the tables (`SnapshotScanOk`): a key with a value is met first at
the version with that value, no tombstone is met below it, where collecting stops, and nothing
else is met at a value.  `agrees_run_iff` says so for every history.
-/

namespace Crabstash

open Run StorageIterator

/-- `SnapshotIterator`: what it reads from, its timestamp, and the key data returned last. -/
structure SnapshotIterator (ι : Type) where
  inner : ι
  snapshotTs : ℕ
  lastKey : Option Bytes

namespace SnapshotIterator

variable {ι : Type} [StorageIterator ι]

/-- `advance_to_visible`; what `next` returns is thrown away. -/
def advanceToVisible : ℕ → SnapshotIterator ι → SnapshotIterator ι
  | 0, it => it
  | fuel + 1, it =>
      if !isValid it.inner then it
      else
        let data := (key it.inner).data
        if it.lastKey = some data then
          advanceToVisible fuel { it with inner := (next it.inner).2 }
        else if (key it.inner).timestamp ≤ it.snapshotTs then it
        else advanceToVisible fuel { it with lastKey := some data, inner := (next it.inner).2 }

/-- `SnapshotIterator::new`: it moves to the first version that is visible. -/
def new (inner : ι) (snapshotTs : ℕ) : SnapshotIterator ι :=
  advanceToVisible (remaining inner) { inner, snapshotTs, lastKey := none }

instance : StorageIterator (SnapshotIterator ι) where
  key it := key it.inner
  value it := value it.inner
  isValid it := isValid it.inner
  next it :=
    let lastKey := some (key it.inner).data
    match next it.inner with
    | (.error e, inner) => (.error e, { it with inner, lastKey })
    | (.ok (), inner) =>
        (.ok (), advanceToVisible (remaining inner) { it with inner, lastKey })
  remaining it := remaining it.inner

/-! ## What it goes through -/

/-- The items that the iterator stops at, having `lastKey` behind it. -/
def visibleItems (ts : ℕ) : Option Bytes → List Item → List Item
  | _, [] => []
  | lastKey, item :: rest =>
      if lastKey = some item.1.data then visibleItems ts lastKey rest
      else if item.1.timestamp ≤ ts then item :: visibleItems ts (some item.1.data) rest
      else visibleItems ts (some item.1.data) rest

theorem visibleItems_sublist (ts : ℕ) (lastKey : Option Bytes) (items : List Item) :
    (visibleItems ts lastKey items).Sublist items := by
  induction items generalizing lastKey with
  | nil => exact List.Sublist.refl []
  | cons item rest ih =>
      unfold visibleItems
      split
      · exact (ih _).cons item
      · split
        · exact (ih _).cons_cons item
        · exact (ih _).cons item

theorem yields_advanceToVisible {inner : ι} {items : List Item} (h : Yields inner items) (ts : ℕ)
    (lastKey : Option Bytes) {fuel : ℕ} (hfuel : items.length ≤ fuel) :
    Yields (advanceToVisible fuel { inner, snapshotTs := ts, lastKey })
      (visibleItems ts lastKey items) := by
  induction h generalizing lastKey fuel with
  | @done it hvalid =>
      have hstays : advanceToVisible fuel { inner := it, snapshotTs := ts, lastKey } =
          { inner := it, snapshotTs := ts, lastKey } := by
        cases fuel with
        | zero => rfl
        | succ fuel => simp [advanceToVisible, hvalid]
      rw [hstays]
      exact Yields.done hvalid
  | @step it it' item rest hvalid hitem hremaining hnext hrest ih =>
      obtain ⟨fuel, rfl⟩ : ∃ n, fuel = n + 1 := ⟨fuel - 1, by simp at hfuel; omega⟩
      have hlength : rest.length ≤ fuel := by simpa using hfuel
      have hkey : key it = item.1 := congrArg Prod.fst hitem
      have hmoved : (next it).2 = it' := congrArg Prod.snd hnext
      rw [advanceToVisible, visibleItems]
      simp only [hvalid, Bool.not_true, Bool.false_eq_true, if_false, hkey, hmoved]
      by_cases hlast : lastKey = some item.1.data
      · rw [if_pos hlast, if_pos hlast]
        exact ih lastKey hlength
      · rw [if_neg hlast, if_neg hlast]
        -- a version too new also hides the older ones of its key
        by_cases hold : item.1.timestamp ≤ ts
        · rw [if_pos hold, if_pos hold]
          have hlater := ih (some item.1.data) hrest.length_le
          refine Yields.step hvalid hitem ?_ ?_ hlater
          · exact lt_of_le_of_lt (visibleItems_sublist ..).length_le hremaining
          · simp only [next, hkey]
            rw [hnext]
        · rw [if_neg hold, if_neg hold]
          exact ih (some item.1.data) hlength

theorem yields_new {inner : ι} {items : List Item} (h : Yields inner items) (ts : ℕ) :
    Yields (new inner ts) (visibleItems ts none items) :=
  yields_advanceToVisible h ts none h.length_le

private theorem firstOf_cons (data : Bytes) (item : Item) (rest : List Item) :
    firstOf data (item :: rest) = if item.1.data = data then some item else firstOf data rest := by
  rw [firstOf, List.find?_cons]
  by_cases hdata : item.1.data = data
  · rw [if_pos hdata, decide_eq_true hdata]
  · rw [if_neg hdata, decide_eq_false hdata, firstOf]

/-- It stops at the first version of a key, and if that is too new, at none. -/
theorem mem_visibleItems {ts : ℕ} {lastKey : Option Bytes} {items : List Item}
    (hsorted : Sorted items)
    (hlast : ∀ data, lastKey = some data → ∀ item ∈ items, data ≤ item.1.data) {item : Item} :
    item ∈ visibleItems ts lastKey items ↔ lastKey ≠ some item.1.data ∧
      firstOf item.1.data items = some item ∧ item.1.timestamp ≤ ts := by
  induction items generalizing lastKey with
  | nil => simp [visibleItems, firstOf]
  | cons first rest ih =>
      obtain ⟨hfirst, hrest⟩ := List.pairwise_cons.mp hsorted
      rw [visibleItems, firstOf_cons]
      by_cases hdominated : lastKey = some first.1.data
      · have hlater : ∀ data, lastKey = some data → ∀ item ∈ rest, data ≤ item.1.data := by
          intro data hdata item hitem
          exact hlast data hdata item (List.mem_cons_of_mem _ hitem)
        rw [if_pos hdominated, ih hrest hlater]
        refine and_congr_right fun hne => ?_
        rw [if_neg]
        intro hsame
        exact hne (hsame ▸ hdominated)
      · have hlater : ∀ data, some first.1.data = some data → ∀ item ∈ rest,
            data ≤ item.1.data := by
          rintro data hdata item hitem
          obtain rfl := Option.some.inj hdata
          exact Key.data_le_of_le (hfirst item hitem)
        have hin : item ∈ visibleItems ts (some first.1.data) rest ↔
            some first.1.data ≠ some item.1.data ∧ firstOf item.1.data rest = some item ∧
              item.1.timestamp ≤ ts := ih hrest hlater
        -- an item behind the first one is not of the key before it
        have hpast : firstOf item.1.data rest = some item → first.1.data ≠ item.1.data →
            lastKey ≠ some item.1.data := by
          intro hfound hne hdata
          obtain ⟨hitem, _⟩ := firstOf_eq_some hfound
          have hle := hlast _ hdata first (List.mem_cons_self ..)
          exact hne (le_antisymm (Key.data_le_of_le (hfirst item hitem)) hle)
        rw [if_neg hdominated]
        by_cases hsame : first.1.data = item.1.data
        · have hnot : item ∉ visibleItems ts (some first.1.data) rest := by
            intro hmem
            exact (hin.mp hmem).1 (congrArg some hsame)
          have hne : lastKey ≠ some item.1.data := hsame ▸ hdominated
          rw [if_pos hsame, Option.some.injEq]
          split
          · next hold =>
              rw [List.mem_cons, or_iff_left hnot]
              constructor
              · rintro rfl
                exact ⟨hne, rfl, hold⟩
              · rintro ⟨_, heq, _⟩
                exact heq.symm
          · next hnew =>
              refine iff_of_false hnot ?_
              rintro ⟨_, rfl, hold⟩
              exact hnew hold
        · have hrestIff : item ∈ visibleItems ts (some first.1.data) rest ↔
              lastKey ≠ some item.1.data ∧ firstOf item.1.data rest = some item ∧
                item.1.timestamp ≤ ts := by
            rw [hin]
            constructor
            · rintro ⟨_, hfound, hold⟩
              exact ⟨hpast hfound hsame, hfound, hold⟩
            · rintro ⟨_, hfound, hold⟩
              exact ⟨fun h => hsame (Option.some.inj h), hfound, hold⟩
          rw [if_neg hsame]
          split
          · rw [List.mem_cons, or_iff_right]
            · exact hrestIff
            · rintro rfl
              exact hsame rfl
          · exact hrestIff

end SnapshotIterator

/-! ## Scans and reads -/

/-- `scan_at_ts`. -/
def Lsm.scanAtTs (s : Lsm) (start last : Bound) (ts : ℕ) :
    Except Error (SnapshotIterator LsmIterator) :=
  (s.buildScanIterator start last).map fun bounded => SnapshotIterator.new bounded ts

/-- `Snapshot::scan_range`. -/
def Snapshot.scanRange (snapshot : Snapshot) (s : Lsm) (start last : Bound) :
    Except Error (SnapshotIterator LsmIterator) := s.scanAtTs start last snapshot.ts

/-- Collecting a scan through the snapshot gives the pairs within the bounds that the reads
through it give, each once and in order. -/
def Snapshot.Agrees (snapshot : Snapshot) (s : Lsm) (start last : Bound) : Prop :=
  ∃ (it : SnapshotIterator LsmIterator) (pairs : List (Bytes × Bytes)),
    snapshot.scanRange s start last = .ok it ∧ DbIterator.collect it = pairs.map .ok ∧
    (pairs.Pairwise fun a b => a.1 < b.1) ∧
    ∀ key value, (key, value) ∈ pairs ↔ Within start last key ∧ snapshot.get s key = some value

namespace Lsm

/-- The value of a key at a timestamp: of its versions in the memtable the newest that is not
newer, and if there is none, of those in the tables the newest with a value, where of a table the
last block counts that begins at or below the key. -/
def valueAt (s : Lsm) (ts : ℕ) (key : Bytes) : Option Bytes :=
  match s.memtable.iter.find? fun e => decide (e.1.data = key ∧ e.1.timestamp ≤ ts) with
  | some e => e.2
  | none => (s.levels 0).reverse.findSome? fun t =>
      ((t.entriesFrom key).find? fun e => decide (e.1 = key)).bind Prod.snd

/-- The version of the key that a scan meets first is not newer than `ts` and has this effect. -/
def Meets (s : Lsm) (startKey : Option Bytes) (ts : ℕ) (key : Bytes) (effect : Option Bytes) :
    Prop :=
  ∃ item, s.firstMet startKey key = some item ∧ item.1.timestamp ≤ ts ∧ item.2 = effect

/-- A state in which a scan through a snapshot agrees with the reads through it. -/
structure SnapshotScanOk (s : Lsm) (ts : ℕ) (start last : Bound) : Prop where
  /-- A key that has a value is met first at a version that is not newer and has the value. -/
  met : ∀ key value, Within start last key → s.valueAt ts key = some value →
    s.Meets start.startKey ts key (some value)
  /-- Below it no key is met first at a tombstone that is not newer. -/
  unstopped : ∀ key value, Within start last key → s.valueAt ts key = some value →
    ∀ key' < key, Within start last key' → ¬ s.Meets start.startKey ts key' none
  /-- A key met first at another value is above such a tombstone. -/
  others : ∀ key value, Within start last key → s.Meets start.startKey ts key (some value) →
    s.valueAt ts key = some value ∨
      ∃ key' < key, Within start last key' ∧ s.Meets start.startKey ts key' none

theorem OneSession.getAtTs_eq_valueAt {s : Lsm} (h : s.OneSession) (key : Bytes) (ts : ℕ) :
    s.getAtTs key ts = s.valueAt ts key := by
  have hprobe : probe s.levels key = (s.levels 0).reverse.findSome? fun t =>
      ((t.entriesFrom key).find? fun e => decide (e.1 = key)).bind Prod.snd := by
    rw [h.probe_eq]
    refine findSome?_congr fun t ht => ?_
    exact (h.tables t (List.mem_reverse.mp ht)).get_eq_entriesFrom key
  rw [getAtTs_eq h.immutableMemtables, MemTable.getAtTs_eq, valueAt, hprobe]
  change Option.getD ((s.memtable.iter.find? fun e =>
    decide (e.1.data = key ∧ e.1.timestamp ≤ ts)).map Prod.snd) _ = _
  cases s.memtable.iter.find? fun e => decide (e.1.data = key ∧ e.1.timestamp ≤ ts) <;> rfl

/-- The items that a scan through a snapshot stops at are the first versions that are not
newer. -/
theorem Scanned.mem_visibleItems {s : Lsm} {start last : Bound} {items : List Item}
    (h : s.Scanned start last items) (ts : ℕ) {item : Item} :
    item ∈ SnapshotIterator.visibleItems ts none items ↔ Within start last item.1.data ∧
      s.firstMet start.startKey item.1.data = some item ∧ item.1.timestamp ≤ ts := by
  have hlast : ∀ data, (none : Option Bytes) = some data → ∀ item ∈ items,
      data ≤ item.1.data := by
    intro data hdata
    contradiction
  rw [SnapshotIterator.mem_visibleItems (h.sorted.imp le_of_lt) hlast]
  constructor
  · rintro ⟨_, hfirst, hold⟩
    have hwithin := h.within item (firstOf_eq_some hfirst).1
    exact ⟨hwithin, h.firstOf _ hwithin ▸ hfirst, hold⟩
  · rintro ⟨hwithin, hmet, hold⟩
    exact ⟨Option.noConfusion rfl ∘ heq_of_eq, (h.firstOf _ hwithin).trans hmet, hold⟩

theorem data_of_firstMet {s : Lsm} {startKey : Option Bytes} {key : Bytes} {item : Item}
    (hmet : s.firstMet startKey key = some item) : item.1.data = key := by
  rcases Option.or_eq_some_iff.mp hmet with hmem | ⟨_, htables⟩
  · exact (firstOf_eq_some hmem).2
  · obtain ⟨t, _, hfirst⟩ := List.exists_of_findSome?_eq_some htables
    exact (firstOf_eq_some hfirst).2

/-- What collecting sees: the keys met at a value, up to the first met at a tombstone. -/
theorem OneSession.collect_scanAtTs {s : Lsm} (h : s.OneSession) (start last : Bound) (ts : ℕ) :
    ∃ (it : SnapshotIterator LsmIterator) (pairs : List (Bytes × Bytes)),
      s.scanAtTs start last ts = .ok it ∧ DbIterator.collect it = pairs.map .ok ∧
      (pairs.Pairwise fun a b => a.1 < b.1) ∧
      ∀ key value, (key, value) ∈ pairs ↔ Within start last key ∧
        s.Meets start.startKey ts key (some value) ∧
        ∀ key' < key, Within start last key' → ¬ s.Meets start.startKey ts key' none := by
  obtain ⟨bounded, items, hbuild, hyields, hscanned⟩ := h.exists_scanned start last
  have hvisible := SnapshotIterator.yields_new hyields ts
  have hmem : ∀ item, item ∈ SnapshotIterator.visibleItems ts none items ↔
      Within start last item.1.data ∧ s.firstMet start.startKey item.1.data = some item ∧
        item.1.timestamp ≤ ts := fun item => hscanned.mem_visibleItems ts
  set visible := SnapshotIterator.visibleItems ts none items with hdef
  have hsorted : visible.Pairwise fun a b => a.1 < b.1 :=
    hscanned.sorted.sublist (SnapshotIterator.visibleItems_sublist ..)
  refine ⟨SnapshotIterator.new bounded ts, (visible.takeWhile fun item => item.2.isSome).map
    fun item => (item.1.data, item.2.getD []), ?_, ?_, ?_, ?_⟩
  · rw [scanAtTs, hbuild]
    rfl
  · rw [DbIterator.collect_eq hvisible, List.map_map]
    rfl
  · rw [List.pairwise_map]
    apply List.Pairwise.imp_of_mem _ (hsorted.sublist (List.takeWhile_sublist _))
    intro a b ha hb hlt
    have ha := (hmem a).mp ((List.takeWhile_sublist _).mem ha)
    have hb := (hmem b).mp ((List.takeWhile_sublist _).mem hb)
    apply lt_of_le_of_ne (Key.data_le_of_le hlt.le)
    intro hdata
    -- two items of one key would both be the first
    rw [hdata, hb.2.1] at ha
    exact hlt.ne (congrArg Prod.fst (Option.some.inj ha.2.1)).symm
  · intro key value
    rw [List.mem_map]
    constructor
    · rintro ⟨item, hitem, hpair⟩
      obtain ⟨hin, hbefore⟩ := (mem_takeWhile_iff hsorted _).mp hitem
      obtain ⟨hwithin, hmet, hold⟩ := (hmem item).mp hin
      obtain ⟨v, hv⟩ := Option.isSome_iff_exists.mp (hbefore item hin le_rfl)
      obtain ⟨rfl, rfl⟩ := Prod.mk.inj hpair
      refine ⟨hwithin, ⟨item, hmet, hold, ?_⟩, ?_⟩
      · rw [hv]
        rfl
      · rintro key' hlt hwithin' ⟨item', hmet', hold', hnone⟩
        have hdata' := data_of_firstMet hmet'
        subst hdata'
        have hle : item'.1 ≤ item.1 := (Key.lt_of_data_lt hlt).le
        have hsome := hbefore item' ((hmem item').mpr ⟨hwithin', hmet', hold'⟩) hle
        rw [hnone] at hsome
        contradiction
    · rintro ⟨hwithin, ⟨item, hmet, hold, hvalue⟩, hbefore⟩
      have hdata := data_of_firstMet hmet
      subst hdata
      refine ⟨item, (mem_takeWhile_iff hsorted _).mpr ⟨(hmem item).mpr ⟨hwithin, hmet, hold⟩, ?_⟩,
        ?_⟩
      · intro item' hitem' hle
        obtain ⟨hwithin', hmet', hold'⟩ := (hmem item').mp hitem'
        rw [Option.isSome_iff_ne_none]
        intro hnone
        rcases (Key.data_le_of_le hle).lt_or_eq with hlt | heq
        · exact hbefore _ hlt hwithin' ⟨item', hmet', hold', hnone⟩
        · rw [heq, hmet] at hmet'
          rw [← Option.some.inj hmet', hvalue] at hnone
          contradiction
      · rw [hvalue]
        rfl

/-- In one session, a scan through a snapshot agrees with the reads just in such states. -/
theorem OneSession.agrees_iff {s : Lsm} (h : s.OneSession) (snapshot : Snapshot)
    (start last : Bound) :
    snapshot.Agrees s start last ↔ s.SnapshotScanOk snapshot.ts start last := by
  obtain ⟨it, pairs, hscan, hcollect, hsorted, hpairs⟩ :=
    h.collect_scanAtTs start last snapshot.ts
  have hget : ∀ key, snapshot.get s key = s.valueAt snapshot.ts key := fun key =>
    h.getAtTs_eq_valueAt key snapshot.ts
  constructor
  · rintro ⟨it', pairs', hscan', hcollect', _, hreads⟩
    obtain rfl : it = it' := Except.ok.inj (hscan.symm.trans hscan')
    obtain rfl : pairs = pairs' := by
      have hmaps := hcollect.symm.trans hcollect'
      exact List.map_injective_iff.mpr (fun _ _ heq => Except.ok.inj heq) hmaps
    have hvalue : ∀ key value, Within start last key → s.valueAt snapshot.ts key = some value →
        (key, value) ∈ pairs := by
      intro key value hwithin hvalue
      exact (hreads key value).mpr ⟨hwithin, (hget key).trans hvalue⟩
    refine ⟨?_, ?_, ?_⟩
    · intro key value hwithin hread
      exact ((hpairs key value).mp (hvalue key value hwithin hread)).2.1
    · intro key value hwithin hread
      exact ((hpairs key value).mp (hvalue key value hwithin hread)).2.2
    · intro key value hwithin hmet
      -- a key that is met with a value is returned, unless the scan stopped before it
      by_cases hstopped : ∃ key' < key, Within start last key' ∧
          s.Meets start.startKey snapshot.ts key' none
      · exact Or.inr hstopped
      · refine Or.inl ?_
        have hpair : (key, value) ∈ pairs := by
          refine (hpairs key value).mpr ⟨hwithin, hmet, ?_⟩
          intro key' hlt hwithin' hdead
          exact hstopped ⟨key', hlt, hwithin', hdead⟩
        rw [← hget]
        exact ((hreads key value).mp hpair).2
  · intro hok
    refine ⟨it, pairs, hscan, hcollect, hsorted, ?_⟩
    intro key value
    rw [hpairs, hget]
    constructor
    · rintro ⟨hwithin, hmet, hbefore⟩
      refine ⟨hwithin, ?_⟩
      rcases hok.others key value hwithin hmet with hvalue | ⟨key', hlt, hwithin', hdead⟩
      · exact hvalue
      · exact absurd hdead (hbefore key' hlt hwithin')
    · rintro ⟨hwithin, hvalue⟩
      exact ⟨hwithin, hok.met key value hwithin hvalue, hok.unstopped key value hwithin hvalue⟩

/-! ## Histories -/

/-- A write operation, or a flush at any other time. -/
inductive FlushStep where
  | op (op : Op)
  | flush
  deriving DecidableEq, Repr

/-- The tree after a write or a flush. -/
def flushStep (s : Lsm) : FlushStep → Lsm
  | .op op => s.step op
  | .flush => s.rotate

theorem oneSession_flushRun {s : Lsm} (h : s.OneSession) (steps : List FlushStep) :
    (run flushStep s steps).OneSession := by
  apply Run.invariant OneSession
  · intro s step hs
    cases step with
    | op op =>
        show (s.step op).OneSession
        rw [step_eq]
        split
        · exact (hs.logged op).rotate
        · exact hs.logged op
    | flush => exact hs.rotate
  · exact h

/-- **A scan through a snapshot agrees with the reads through it just when the state allows it**,
whatever was written and flushed before the snapshot and after it. -/
theorem agrees_run_iff (memtableSize : ℕ) (before after : List FlushStep) (start last : Bound) :
    (run flushStep (openDir memtableSize Dir.empty) before).snapshot.Agrees
        (run flushStep (openDir memtableSize Dir.empty) (before ++ after)) start last ↔
      (run flushStep (openDir memtableSize Dir.empty) (before ++ after)).SnapshotScanOk
        (run flushStep (openDir memtableSize Dir.empty) before).snapshot.ts start last :=
  (oneSession_flushRun (oneSession_openDir memtableSize) (before ++ after)).agrees_iff _ start last

example : ((run flushStep (openDir 100 Dir.empty)
    [.op (.put [2] [1]), .flush, .op (.put [1] [2])]).snapshot.scanRange
      (run flushStep (openDir 100 Dir.empty) [.op (.put [2] [1]), .flush, .op (.put [1] [2])])
      .unbounded (.included [2])).map DbIterator.collect =
    .ok [.ok ([1], [2]), .ok ([2], [1])] := by decide +kernel

/-- A key is written once before the snapshot and twice after it: the second of these is too
new, and the scan passes over the two others as well. -/
theorem not_agrees_overwritten :
    ¬ (run flushStep (openDir 100 Dir.empty) [.op (.put [1] [1])]).snapshot.Agrees
      (run flushStep (openDir 100 Dir.empty)
        ([.op (.put [1] [1])] ++ [.op (.put [1] [2]), .op (.put [1] [3])])) .unbounded .unbounded := by
  rintro ⟨it, pairs, hscan, hcollect, _, hreads⟩
  have hnothing : ((run flushStep (openDir 100 Dir.empty) [.op (.put [1] [1])]).snapshot.scanRange
      (run flushStep (openDir 100 Dir.empty)
        ([.op (.put [1] [1])] ++ [.op (.put [1] [2]), .op (.put [1] [3])]))
      .unbounded .unbounded).map DbIterator.collect = .ok [] := by decide +kernel
  have hread : ([1], [2]) ∈ pairs := by
    refine (hreads [1] [2]).mpr ⟨⟨rfl, rfl⟩, ?_⟩
    decide +kernel
  rw [hscan] at hnothing
  have hempty : (pairs.map .ok : List (Except Error (Bytes × Bytes))) = [] :=
    hcollect.symm.trans (Except.ok.inj hnothing)
  rw [List.map_eq_nil_iff.mp hempty] at hread
  exact absurd hread List.not_mem_nil

end Lsm
end Crabstash

import Crabstash.Storage.Precedence
import Crabstash.Storage.SnapshotScan

/-!
# The loop of a snapshot iterator

`advance_to_visible` turn by turn, and what a `SnapshotIterator` shows when the iterator inside it
makes no error.

`last_key` is set in three places: when an entry is left, when an entry is too new, and by both it
means that the rest of the key is passed over.  After a version that was shown this is right.  After
a version that is too new it is not: an older version of the key that should be shown is taken for
a dominated one.  So the iterator shows the visible versions just when no key has a version above
the snapshot beside one that is not (`showsVisible_iff`).
-/

namespace Crabstash

open StorageIterator

/-- Of every key that has a version up to `ts` the newest such, in the order of the keys, and
nothing else. -/
structure ShowsVisible (ts : ℕ) (items out : List Item) : Prop where
  distinct : Distinct out
  newest : ∀ item ∈ out, item ∈ items ∧ item.1.timestamp ≤ ts ∧
    ∀ other ∈ items, other.1.data = item.1.data → other.1.timestamp ≤ ts →
      other.1.timestamp ≤ item.1.timestamp
  complete : ∀ item ∈ items, item.1.timestamp ≤ ts → ∃ shown ∈ out, shown.1.data = item.1.data

/-- No key has a version above `ts` beside one that is not. -/
def Unmixed (ts : ℕ) (items : List Item) : Prop :=
  ∀ a ∈ items, ∀ b ∈ items, a.1.data = b.1.data → b.1.timestamp ≤ ts → a.1.timestamp ≤ ts

namespace SnapshotIterator

variable {ι : Type} [StorageIterator ι]

/-- One turn of the loop, and `none` where it is left. -/
def turn (it : SnapshotIterator ι) : Option (SnapshotIterator ι) :=
  if !isValid it.inner then none
  else
    let data := (key it.inner).data
    if it.lastKey = some data then some { it with inner := (next it.inner).2 }
    else if (key it.inner).timestamp ≤ it.snapshotTs then none
    else some { it with lastKey := some data, inner := (next it.inner).2 }

/-- The loop comes to its end, and where. -/
inductive Settles : SnapshotIterator ι → SnapshotIterator ι → Prop
  | stop {it : SnapshotIterator ι} (hturn : turn it = none) : Settles it it
  | turn {it it' last : SnapshotIterator ι} (hturn : turn it = some it') (hrest : Settles it' last) :
      Settles it last

/-- The calls of `next` until the iterator is used up, each with its loop run to the end. -/
inductive Drains : SnapshotIterator ι → List Item → Prop
  | done {it : SnapshotIterator ι} (hvalid : isValid it.inner = false) : Drains it []
  | step {it it' : SnapshotIterator ι} {inner : ι} {out : List Item}
      (hvalid : isValid it.inner = true) (hnext : next it.inner = (.ok (), inner))
      (hsettles : Settles { it with inner, lastKey := some (key it.inner).data } it')
      (hrest : Drains it' out) : Drains it ((key it.inner, value it.inner) :: out)

theorem advanceToVisible_succ (fuel : ℕ) (it : SnapshotIterator ι) :
    advanceToVisible (fuel + 1) it =
      match turn it with
      | none => it
      | some it' => advanceToVisible fuel it' := by
  unfold turn
  rw [advanceToVisible]
  by_cases hvalid : isValid it.inner = true
  · simp only [hvalid, Bool.not_true, Bool.false_eq_true, if_false]
    split
    · rfl
    · split
      · rfl
      · rfl
  · simp [Bool.eq_false_iff.mpr hvalid]

/-- A loop that comes to its end does so within some number of turns. -/
theorem Settles.exists_fuel {it last : SnapshotIterator ι} (h : Settles it last) :
    ∃ n, ∀ fuel, n ≤ fuel → advanceToVisible fuel it = last := by
  induction h with
  | @stop it hturn =>
      refine ⟨0, fun fuel _ => ?_⟩
      cases fuel with
      | zero => rfl
      | succ fuel => rw [advanceToVisible_succ, hturn]
  | turn hturn _ ih =>
      obtain ⟨n, hn⟩ := ih
      refine ⟨n + 1, fun fuel hle => ?_⟩
      obtain ⟨fuel, rfl⟩ : ∃ m, fuel = m + 1 := ⟨fuel - 1, by omega⟩
      rw [advanceToVisible_succ, hturn]
      exact hn fuel (by omega)

/-- Over an iterator that makes no error the loop comes to its end, within the turns that
`advanceToVisible` gives it, and so do the calls of `next` after it. -/
theorem drains_advanceToVisible {inner : ι} {items : List Item} (h : Yields inner items) (ts : ℕ)
    (lastKey : Option Bytes) {fuel : ℕ} (hfuel : items.length ≤ fuel) :
    Settles ⟨inner, ts, lastKey⟩ (advanceToVisible fuel ⟨inner, ts, lastKey⟩) ∧
      Drains (advanceToVisible fuel ⟨inner, ts, lastKey⟩) (visibleItems ts lastKey items) := by
  induction h generalizing lastKey fuel with
  | @done it hvalid =>
      have hturn : turn (⟨it, ts, lastKey⟩ : SnapshotIterator ι) = none := by
        simp [turn, hvalid]
      have hstays : advanceToVisible fuel (⟨it, ts, lastKey⟩ : SnapshotIterator ι) =
          ⟨it, ts, lastKey⟩ := by
        cases fuel with
        | zero => rfl
        | succ fuel => rw [advanceToVisible_succ, hturn]
      rw [hstays]
      exact ⟨Settles.stop hturn, Drains.done hvalid⟩
  | @step it it' item rest hvalid hitem hremaining hnext hrest ih =>
      obtain ⟨fuel, rfl⟩ : ∃ n, fuel = n + 1 := ⟨fuel - 1, by simp at hfuel; omega⟩
      have hlength : rest.length ≤ fuel := by simpa using hfuel
      have hkey : key it = item.1 := congrArg Prod.fst hitem
      have hmoved : (next it).2 = it' := congrArg Prod.snd hnext
      rw [advanceToVisible_succ, visibleItems]
      -- an older version of the key just shown is passed over
      by_cases hlast : lastKey = some item.1.data
      · have hturn : turn (⟨it, ts, lastKey⟩ : SnapshotIterator ι) = some ⟨it', ts, lastKey⟩ := by
          simp [turn, hvalid, hkey, hlast, hmoved]
        obtain ⟨hsettles, hdrains⟩ := ih lastKey hlength
        rw [hturn, if_pos hlast]
        exact ⟨Settles.turn hturn hsettles, hdrains⟩
      · rw [if_neg hlast]
        by_cases hold : item.1.timestamp ≤ ts
        · have hturn : turn (⟨it, ts, lastKey⟩ : SnapshotIterator ι) = none := by
            simp [turn, hvalid, hkey, hlast, hold]
          obtain ⟨hsettles, hdrains⟩ := ih (some item.1.data) hrest.length_le
          rw [hturn, if_pos hold, ← hitem]
          rw [← hkey] at hsettles hdrains
          exact ⟨Settles.stop hturn, Drains.step hvalid hnext hsettles hdrains⟩
        -- a version too new is passed over, and its key is taken for shown
        · have hturn : turn (⟨it, ts, lastKey⟩ : SnapshotIterator ι) =
              some ⟨it', ts, some item.1.data⟩ := by
            simp [turn, hvalid, hkey, hlast, hold, hmoved]
          obtain ⟨hsettles, hdrains⟩ := ih (some item.1.data) hlength
          rw [hturn, if_neg hold]
          exact ⟨Settles.turn hturn hsettles, hdrains⟩

/-! ## What is shown -/

theorem distinct_visibleItems {ts : ℕ} {lastKey : Option Bytes} {items : List Item}
    (hsorted : Sorted items) : Distinct (visibleItems ts lastKey items) := by
  induction items generalizing lastKey with
  | nil => exact List.Pairwise.nil
  | cons first rest ih =>
      obtain ⟨hfirst, hrest⟩ := List.pairwise_cons.mp hsorted
      rw [visibleItems]
      split
      · exact ih hrest
      · split
        · refine List.pairwise_cons.mpr ⟨?_, ih hrest⟩
          intro item hitem
          have hlast : ∀ data, some first.1.data = some data → ∀ item ∈ rest,
              data ≤ item.1.data := by
            rintro data hdata item hitem
            obtain rfl := Option.some.inj hdata
            exact Key.data_le_of_le (hfirst item hitem)
          have hin := ((mem_visibleItems hrest hlast).mp hitem).1
          have hle := hlast _ rfl item ((visibleItems_sublist ..).subset hitem)
          exact lt_of_le_of_ne hle fun h => hin (congrArg some h)
        · exact ih hrest

/-- Of every key its first version, if that is not too new. -/
theorem mem_visibleItems_none {ts : ℕ} {items : List Item} (hsorted : Sorted items) {item : Item} :
    item ∈ visibleItems ts none items ↔
      firstOf item.1.data items = some item ∧ item.1.timestamp ≤ ts := by
  rw [mem_visibleItems hsorted fun _ hdata => Option.noConfusion rfl (heq_of_eq hdata)]
  exact and_iff_right (Option.some_ne_none _).symm

theorem showsVisible_visibleItems_iff {ts : ℕ} {items : List Item} (hsorted : Sorted items) :
    ShowsVisible ts items (visibleItems ts none items) ↔ Unmixed ts items := by
  have hnewer : ∀ {first other : Item}, firstOf first.1.data items = some first → other ∈ items →
      other.1.data = first.1.data → other.1.timestamp ≤ first.1.timestamp := by
    intro first other hfirst hother hdata
    rcases Key.le_iff.mp (hsorted.firstOf_le hfirst hother hdata) with hlt | ⟨_, hle⟩
    · exact absurd hdata hlt.ne'
    · exact hle
  constructor
  · intro hshows a ha b hb hdata hold
    obtain ⟨shown, hshown, hkey⟩ := hshows.complete b hb hold
    obtain ⟨hfirst, hle⟩ := (mem_visibleItems_none hsorted).mp hshown
    exact (hnewer hfirst ha (hdata.trans hkey.symm)).trans hle
  · intro hunmixed
    refine ⟨distinct_visibleItems hsorted, ?_, ?_⟩
    · intro item hitem
      obtain ⟨hfirst, hle⟩ := (mem_visibleItems_none hsorted).mp hitem
      exact ⟨(firstOf_eq_some hfirst).1, hle, fun other hother hdata _ => hnewer hfirst hother hdata⟩
    · intro item hitem hold
      have hsome : (firstOf item.1.data items).isSome := by
        rw [firstOf, List.find?_isSome]
        exact ⟨item, hitem, decide_eq_true rfl⟩
      obtain ⟨first, hfirst⟩ := Option.isSome_iff_exists.mp hsome
      obtain ⟨hmem, hdata⟩ := firstOf_eq_some hfirst
      refine ⟨first, (mem_visibleItems_none hsorted).mpr ⟨hdata.symm ▸ hfirst, ?_⟩, hdata⟩
      exact hunmixed first hmem item hitem hdata hold

/-- **A snapshot iterator shows the visible versions** over an iterator in the order of the keys
that makes no error, just when no key has a version that is too new beside one that is not.  Its
calls come to an end in any case. -/
theorem showsVisible_iff {inner : ι} {items : List Item} (hyields : Yields inner items)
    (hsorted : Sorted items) (ts : ℕ) :
    Settles ⟨inner, ts, none⟩ (new inner ts) ∧
      ∃ out, Drains (new inner ts) out ∧ Yields (new inner ts) out ∧
        (ShowsVisible ts items out ↔ Unmixed ts items) := by
  obtain ⟨hsettles, hdrains⟩ := drains_advanceToVisible hyields ts none hyields.length_le
  exact ⟨hsettles, _, hdrains, yields_new hyields ts, showsVisible_visibleItems_iff hsorted⟩

/-- Keys with several versions, one of them with all its versions above 3. -/
def severalVersions : List Item :=
  [(⟨[1], 3⟩, some [13]), (⟨[1], 2⟩, some [12]), (⟨[2], 5⟩, none), (⟨[3], 1⟩, none)]

theorem showsVisible_iff_severalVersions :
    Settles ⟨(⟨severalVersions, 0⟩ : MemTableIterator), 3, none⟩ (new ⟨severalVersions, 0⟩ 3) ∧
      ∃ out, Drains (new (⟨severalVersions, 0⟩ : MemTableIterator) 3) out ∧
        Yields (new (⟨severalVersions, 0⟩ : MemTableIterator) 3) out ∧
        (ShowsVisible 3 severalVersions out ↔ Unmixed 3 severalVersions) :=
  showsVisible_iff (MemTableIterator.yields severalVersions 0) (by unfold Sorted; decide) 3

/-- A key that was written before and after the snapshot was taken. -/
def writtenAfter : List Item := [(⟨[1], 2⟩, some [2]), (⟨[1], 1⟩, some [1])]

/-- It is not shown at all. -/
theorem not_showsVisible_writtenAfter :
    Drains (new (⟨writtenAfter, 0⟩ : MemTableIterator) 1) [] ∧
      ¬ShowsVisible 1 writtenAfter [] := by
  have hyields := MemTableIterator.yields writtenAfter 0
  refine ⟨(drains_advanceToVisible hyields 1 none hyields.length_le).2, ?_⟩
  intro hshows
  obtain ⟨shown, hshown, _⟩ :=
    hshows.complete (⟨[1], 1⟩, some [1]) (by unfold writtenAfter; decide) le_rfl
  exact List.not_mem_nil hshown

end SnapshotIterator

end Crabstash

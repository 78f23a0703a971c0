import Crabstash.Storage.FlushedTables
import Crabstash.Storage.SnapshotLoop

/-!
# Errors under a snapshot iterator

`advance_to_visible` throws away what `next` of the iterator inside returns.  That iterator may
make any errors here, and `Traversal` says what an error can do to it: it stays on its entry, as
`SSTableIterator` does when a block cannot be read, it comes to stand on the next one, or it is
invalid with entries ahead of it, as `MergeIterator` is.

In the first case the loop makes the same turn again, since it passes over all entries of
`last_key`, and in the last case the iterator is used up before its time.  So all calls end, and no
end is reached in silence, just when every entry that the loop passes over can be left by calling
`next` again and again (`endsWell_iff`).
-/

namespace Crabstash

open StorageIterator

/-- After a call of `next` the entry is left, unless the iterator goes on standing on it. -/
def Passes (stays : Prop) (items items' : List Item) : Prop :=
  stays ∧ items' = items ∨ ¬stays ∧ items' = items.tail

/-- An iterator over finitely many entries that may make errors.  What it has not left yet is kept
beside it, since an iterator that has ended by an error may have lost what it was ahead of. -/
structure Traversal (ι : Type) [StorageIterator ι] where
  /-- These may be the entries that are not left yet, the one it stands on first. -/
  ahead : ι → List Item → Prop
  /-- `next` makes an error and leaves the iterator where it is. -/
  stays : ι → Prop
  stands : ∀ {it : ι} {items : List Item}, ahead it items → isValid it = true →
    ∃ rest, items = (key it, value it) :: rest
  valid_of_stays : ∀ {it : ι} {items : List Item}, ahead it items → isValid it = true →
    stays it → (∃ e, (next it).1 = .error e) ∧ isValid (next it).2 = true
  ahead_next : ∀ {it : ι} {items items' : List Item}, ahead it items → isValid it = true →
    Passes (stays it) items items' → ahead (next it).2 items'
  /-- Without an error the iterator ends only behind the last entry. -/
  ended : ∀ {it : ι} {items : List Item}, ahead it items → isValid it = true →
    (next it).1 = .ok () → isValid (next it).2 = false → items.tail = []

theorem exists_passes (stays : Prop) (items : List Item) : ∃ items', Passes stays items items' := by
  by_cases hstays : stays
  · exact ⟨items, Or.inl ⟨hstays, rfl⟩⟩
  · exact ⟨items.tail, Or.inr ⟨hstays, rfl⟩⟩

namespace Traversal

variable {ι : Type} [StorageIterator ι] (T : Traversal ι)

/-- An iterator that has not been moved: it is not invalid while there are entries. -/
structure Fresh (it : ι) (items : List Item) : Prop where
  ahead : T.ahead it items
  eq_nil : isValid it = false → items = []

/-- Calling `next` again and again gets the iterator off the entry it stands on: to another entry,
or to an end with nothing left, or simply to an end if the caller has seen an error. -/
inductive Leaves (failed : Bool) : ι → List Item → Prop
  | moved {it : ι} {items : List Item} (hvalid : isValid (next it).2 = true)
      (hmoves : ¬T.stays it) : Leaves failed it items
  | ended {it : ι} {items : List Item} (hvalid : isValid (next it).2 = false)
      (hleft : failed = true ∨ items.tail = []) : Leaves failed it items
  | again {it : ι} {items : List Item} (hstays : T.stays it)
      (hrest : Leaves failed (next it).2 items) : Leaves failed it items

end Traversal

namespace SnapshotIterator

variable {ι : Type} [StorageIterator ι]

/-- Where a traversal is when its next step is looked at. -/
inductive Place where
  /-- At the head of the loop of `advance_to_visible`. -/
  | loop
  /-- Outside all calls. -/
  | caller

/-- The states that `new` and calls of `next` on a valid iterator go through, whether a call has
returned an error, and what the iterator inside has not left yet. -/
inductive Reached (T : Traversal ι) (inner : ι) (all : List Item) (ts : ℕ) :
    Bool → Place → SnapshotIterator ι → List Item → Prop
  | created : Reached T inner all ts false .loop ⟨inner, ts, none⟩ all
  | turned {failed : Bool} {it it' : SnapshotIterator ι} {items items' : List Item}
      (h : Reached T inner all ts failed .loop it items) (hturn : turn it = some it')
      (hpasses : Passes (T.stays it.inner) items items') :
      Reached T inner all ts failed .loop it' items'
  | stopped {failed : Bool} {it : SnapshotIterator ι} {items : List Item}
      (h : Reached T inner all ts failed .loop it items) (hturn : turn it = none) :
      Reached T inner all ts failed .caller it items
  | moved {failed : Bool} {it : SnapshotIterator ι} {items items' : List Item} {inner' : ι}
      (h : Reached T inner all ts failed .caller it items) (hvalid : isValid it.inner = true)
      (hnext : next it.inner = (.ok (), inner')) (hpasses : Passes (T.stays it.inner) items items') :
      Reached T inner all ts failed .loop
        { it with inner := inner', lastKey := some (key it.inner).data } items'
  | errored {failed : Bool} {it : SnapshotIterator ι} {items items' : List Item} {inner' : ι}
      {e : Error} (h : Reached T inner all ts failed .caller it items)
      (hvalid : isValid it.inner = true) (hnext : next it.inner = (.error e, inner'))
      (hpasses : Passes (T.stays it.inner) items items') :
      Reached T inner all ts true .caller
        { it with inner := inner', lastKey := some (key it.inner).data } items'

/-- Every loop comes to its end, and the iterator is used up only when all entries have been
visited or a call has returned an error. -/
structure EndsWell (T : Traversal ι) (inner : ι) (all : List Item) (ts : ℕ) : Prop where
  settles : ∀ {failed : Bool} {it : SnapshotIterator ι} {items : List Item},
    Reached T inner all ts failed .loop it items → ∃ last, Settles it last
  visited : ∀ {it : SnapshotIterator ι} {items : List Item},
    Reached T inner all ts false .caller it items → isValid it.inner = false → items = []

/-- The iterator inside gets off every entry that the loop passes over. -/
def GetsOff (T : Traversal ι) (inner : ι) (all : List Item) (ts : ℕ) : Prop :=
  ∀ {failed : Bool} {it it' : SnapshotIterator ι} {items : List Item},
    Reached T inner all ts failed .loop it items → turn it = some it' →
      T.Leaves failed it.inner items

/-! ## Turns -/

variable {it it' : SnapshotIterator ι}

/-- A turn moves the iterator inside and leaves its entry's key in `last_key`. -/
theorem turn_eq_some (hturn : turn it = some it') : isValid it.inner = true ∧
    it' = { it with inner := (next it.inner).2, lastKey := some (key it.inner).data } := by
  unfold turn at hturn
  split at hturn
  · contradiction
  · next hvalid =>
      refine ⟨by simpa using hvalid, ?_⟩
      simp only at hturn
      split at hturn
      · next hdominated =>
          rw [← Option.some.inj hturn, hdominated]
      · split at hturn
        · contradiction
        · exact (Option.some.inj hturn).symm

theorem turn_of_invalid (hvalid : isValid it.inner = false) : turn it = none := by
  simp [turn, hvalid]

/-- An entry of `last_key` is passed over. -/
theorem turn_of_dominated (hvalid : isValid it.inner = true)
    (hdominated : it.lastKey = some (key it.inner).data) :
    turn it = some { it with inner := (next it.inner).2 } := by
  simp [turn, hvalid, hdominated]

/-- While the iterator inside goes on standing on an entry, the loop goes on passing it over. -/
theorem exists_turn_of_stays {T : Traversal ι} {items : List Item}
    (hahead : T.ahead it.inner items) (hturn : turn it = some it') (hstays : T.stays it.inner) :
    ∃ it₂, turn it' = some it₂ := by
  obtain ⟨hvalid, rfl⟩ := turn_eq_some hturn
  obtain ⟨_, hvalid'⟩ := T.valid_of_stays hahead hvalid hstays
  obtain ⟨rest, hstands⟩ := T.stands hahead hvalid
  obtain ⟨rest', hstands'⟩ :=
    T.stands (T.ahead_next hahead hvalid (Or.inl ⟨hstays, rfl⟩)) hvalid'
  have hkey : key it.inner = key (next it.inner).2 := by
    rw [hstands] at hstands'
    exact congrArg Prod.fst (List.cons.inj hstands').1
  exact ⟨_, turn_of_dominated hvalid' (congrArg (fun k : Key => some k.data) hkey)⟩

theorem not_settles_of_turn_self (hturn : turn it = some it) : ¬∃ last, Settles it last := by
  rintro ⟨last, hsettles⟩
  induction hsettles with
  | stop hstop =>
      rw [hstop] at hturn
      contradiction
  | turn hmoves _ ih =>
      obtain rfl := Option.some.inj (hturn.symm.trans hmoves)
      exact ih hturn

/-! ## Runs -/

section Runs

variable {T : Traversal ι} {inner : ι} {all items : List Item} {ts : ℕ} {failed : Bool}
  {place : Place}

theorem Reached.ahead (h : Reached T inner all ts failed place it items)
    (hfresh : T.Fresh inner all) : T.ahead it.inner items := by
  induction h with
  | created => exact hfresh.ahead
  | turned _ hturn hpasses ih =>
      obtain ⟨hvalid, rfl⟩ := turn_eq_some hturn
      exact T.ahead_next ih hvalid hpasses
  | stopped _ _ ih => exact ih
  | moved _ hvalid hnext hpasses ih =>
      have hahead := T.ahead_next ih hvalid hpasses
      rwa [hnext] at hahead
  | errored _ hvalid hnext hpasses ih =>
      have hahead := T.ahead_next ih hvalid hpasses
      rwa [hnext] at hahead

/-- Before an error is returned, the iterator inside is invalid only when nothing is left. -/
theorem Reached.eq_nil (h : Reached T inner all ts failed place it items)
    (hfresh : T.Fresh inner all) (hgetsOff : GetsOff T inner all ts) (hfailed : failed = false)
    (hvalid : isValid it.inner = false) : items = [] := by
  induction h with
  | created => exact hfresh.eq_nil hvalid
  | @turned _ before _ _ _ h hturn hpasses ih =>
      have hleaves := hgetsOff h hturn
      obtain ⟨hvalid₀, rfl⟩ := turn_eq_some hturn
      have hinvalid : isValid (next before.inner).2 = false := hvalid
      -- an iterator that stays is still valid
      have hmoves : ¬T.stays before.inner := by
        intro hstays
        obtain ⟨_, hvalid'⟩ := T.valid_of_stays (h.ahead hfresh) hvalid₀ hstays
        exact absurd (hvalid'.symm.trans hinvalid) (by decide)
      rcases hpasses with ⟨hstays, _⟩ | ⟨_, rfl⟩
      · exact absurd hstays hmoves
      · cases hleaves with
        | moved hvalid' _ => exact absurd (hvalid'.symm.trans hinvalid) (by decide)
        | ended _ hleft => exact hleft.resolve_left (by simp [hfailed])
        | again hstays _ => exact absurd hstays hmoves
  | stopped _ _ ih => exact ih hfailed hvalid
  | moved h hvalid₀ hnext hpasses _ =>
      have hahead := h.ahead hfresh
      have hended := T.ended hahead hvalid₀
      rw [hnext] at hended
      rcases hpasses with ⟨hstays, _⟩ | ⟨_, rfl⟩
      · obtain ⟨⟨e, herror⟩, _⟩ := T.valid_of_stays hahead hvalid₀ hstays
        rw [hnext] at herror
        contradiction
      · exact hended rfl hvalid
  | errored => contradiction

/-- If the entries are always got off, every loop comes to its end: while an entry is passed over
the induction is on the calls that it takes, and from entry to entry on what is left. -/
theorem Reached.exists_settles (h : Reached T inner all ts failed .loop it items)
    (hfresh : T.Fresh inner all) (hgetsOff : GetsOff T inner all ts) :
    ∃ last, Settles it last := by
  induction hn : items.length using Nat.strong_induction_on generalizing it items with
  | h n ih =>
      cases hturn : turn it with
      | none => exact ⟨it, Settles.stop hturn⟩
      | some it₁ =>
          have hleaves := hgetsOff h hturn
          generalize hinner : it.inner = stood at hleaves
          induction hleaves generalizing it it₁ with
          | @moved stood items hvalid hmoves =>
              obtain ⟨hvalid₀, _⟩ := turn_eq_some hturn
              obtain ⟨rest, hstands⟩ := T.stands (h.ahead hfresh) hvalid₀
              -- an entry is gone, so the outer induction goes on
              have hshorter : items.tail.length < n := by
                rw [← hn, hstands]
                simp
              have hreached := Reached.turned h hturn (Or.inr ⟨hinner ▸ hmoves, rfl⟩)
              obtain ⟨last, hsettles⟩ := ih _ hshorter hreached rfl
              exact ⟨last, Settles.turn hturn hsettles⟩
          | @ended stood items hvalid _ =>
              obtain ⟨_, hmoved⟩ := turn_eq_some hturn
              have hstop : turn it₁ = none := by
                refine turn_of_invalid ?_
                rw [hmoved, hinner]
                exact hvalid
              exact ⟨it₁, Settles.turn hturn (Settles.stop hstop)⟩
          | @again stood items hstays _ ih' =>
              obtain ⟨_, hmoved⟩ := turn_eq_some hturn
              -- the iterator stays on its entry, which the inner induction counts
              have hstays₀ : T.stays it.inner := hinner ▸ hstays
              obtain ⟨it₂, hturn₂⟩ := exists_turn_of_stays (h.ahead hfresh) hturn hstays₀
              have hreached := Reached.turned h hturn (Or.inl ⟨hstays₀, rfl⟩)
              obtain ⟨last, hsettles⟩ := ih' hreached hn it₂ hturn₂ (by rw [hmoved, hinner])
              exact ⟨last, Settles.turn hturn hsettles⟩

/-- A loop that comes to its end, and not in silence, has got off the entry it began with. -/
theorem EndsWell.leaves_of_settles (hends : EndsWell T inner all ts)
    (hfresh : T.Fresh inner all) {last : SnapshotIterator ι} (hsettles : Settles it last)
    (h : Reached T inner all ts failed .loop it items) (hturn : turn it = some it') :
    T.Leaves failed it.inner items := by
  induction hsettles generalizing it' items with
  | stop hstop =>
      rw [hstop] at hturn
      contradiction
  | @turn it it₁ last hmoves _ ih =>
      obtain ⟨hvalid₀, hmoved⟩ := turn_eq_some hmoves
      have hinner : it₁.inner = (next it.inner).2 := by rw [hmoved]
      by_cases hstays : T.stays it.inner
      · obtain ⟨it₂, hturn₂⟩ := exists_turn_of_stays (h.ahead hfresh) hmoves hstays
        have hrest := ih (Reached.turned h hmoves (Or.inl ⟨hstays, rfl⟩)) hturn₂
        rw [hinner] at hrest
        exact Traversal.Leaves.again hstays hrest
      · cases hvalid : isValid (next it.inner).2 with
        | true => exact Traversal.Leaves.moved hvalid hstays
        | false =>
            refine Traversal.Leaves.ended hvalid ?_
            have hreached := Reached.turned h hmoves (Or.inr ⟨hstays, rfl⟩)
            have hstop := Reached.stopped hreached (turn_of_invalid (hinner ▸ hvalid))
            cases failed with
            | true => exact Or.inl rfl
            | false => exact Or.inr (hends.visited hstop (hinner ▸ hvalid))

/-- **A snapshot iterator ends, and not in silence**, whatever errors the iterator inside makes,
just when this gets off every entry that the loop passes over. -/
theorem endsWell_iff (T : Traversal ι) {inner : ι} {all : List Item} (hfresh : T.Fresh inner all)
    (ts : ℕ) : EndsWell T inner all ts ↔ GetsOff T inner all ts := by
  constructor
  · intro hends failed it it' items h hturn
    obtain ⟨last, hsettles⟩ := hends.settles h
    exact hends.leaves_of_settles hfresh hsettles h hturn
  · intro hgetsOff
    exact ⟨fun h => h.exists_settles hfresh hgetsOff,
      fun h hvalid => h.eq_nil hfresh hgetsOff rfl hvalid⟩

end Runs

end SnapshotIterator

/-! ## Damaged tables -/

/-- `SSTableIterator` over a table of which some blocks cannot be read: `read_block_cached` reports
that their checksum is wrong. -/
structure DamagedTableIterator where
  iter : SSTableIterator
  unreadable : List ℕ

namespace DamagedTableIterator

/-- `load_block`, where some blocks fail their checksum. -/
def loadBlock (it : DamagedTableIterator) (idx : ℕ) : Except Error Unit × DamagedTableIterator :=
  if it.iter.table.blockMetas.length ≤ idx then
    (.ok (), { it with iter := { it.iter with valid := false } })
  else if idx ∈ it.unreadable then (.error (.corruption "Block checksum mismatch"), it)
  else (.ok (), { it with iter := it.iter.loadBlock idx })

/-- `parse_entry`; the next block may be one that cannot be read. -/
def parseEntry (it : DamagedTableIterator) : Except Error Unit × DamagedTableIterator :=
  if it.iter.blockData.isEmpty then
    if it.iter.table.blockMetas.length ≤ it.iter.blockIdx + 1 then
      (.ok (), { it with iter := { it.iter with valid := false } })
    else
      match it.loadBlock (it.iter.blockIdx + 1) with
      | (.error e, it) => (.error e, it)
      | (.ok (), it) => (.ok (), { it with iter := it.iter.takeEntry })
  else (.ok (), { it with iter := it.iter.takeEntry })

/-- `SSTableIterator::new`; the first block may be one that cannot be read. -/
def new (table : SSTable) (unreadable : List ℕ) : Except Error DamagedTableIterator :=
  let iter : SSTableIterator :=
    { table, blockIdx := 0, blockData := [], currentKey := ⟨[], 0⟩, currentValue := none
      valid := false }
  match loadBlock ⟨iter, unreadable⟩ 0 with
  | (.error e, _) => .error e
  | (.ok (), it) =>
      match it.parseEntry with
      | (.error e, _) => .error e
      | (.ok (), it) => .ok it

instance : StorageIterator DamagedTableIterator where
  key it := it.iter.currentKey
  value it := it.iter.currentValue
  isValid it := it.iter.valid
  next := parseEntry
  remaining it := remaining it.iter

/-- The next entry is in a block that cannot be read. -/
def Stays (it : DamagedTableIterator) : Prop :=
  it.iter.blockData = [] ∧ it.iter.blockIdx + 1 < it.iter.table.blockMetas.length ∧
    it.iter.blockIdx + 1 ∈ it.unreadable

instance (it : DamagedTableIterator) : Decidable it.Stays :=
  inferInstanceAs (Decidable (_ ∧ _ ∧ _))

/-- It stays where it is if it needs a block that cannot be read, and otherwise moves like an
iterator over a table that is not damaged. -/
theorem parseEntry_eq (it : DamagedTableIterator) :
    it.parseEntry =
      if it.Stays then
        (.error (.corruption "Block checksum mismatch"), it)
      else (.ok (), { it with iter := it.iter.parseEntry }) := by
  unfold parseEntry loadBlock SSTableIterator.parseEntry Stays
  by_cases hdata : it.iter.blockData = []
  · by_cases hlast : it.iter.table.blockMetas.length ≤ it.iter.blockIdx + 1
    · simp [hdata, hlast]
    · by_cases hreadable : it.iter.blockIdx + 1 ∈ it.unreadable
      · simp [hdata, hlast, hreadable, not_le.mp hlast]
      · simp [hdata, hlast, hreadable]
  · simp [hdata]

end DamagedTableIterator

namespace SSTableIterator

/-- The entry it stands on and those behind it. -/
def standing (it : SSTableIterator) : List Item :=
  if it.valid then (it.currentKey, it.currentValue) :: (it.blockData ++ it.after).map itemOf else []

theorem standing_eq {it : SSTableIterator} {es : List Entry} {items : List Item}
    (hholds : it.table.Holds es) (hyields : Yields it items) : it.standing = items := by
  cases hyields with
  | done hvalid =>
      have hvalid : it.valid = false := hvalid
      simp [standing, hvalid]
  | @step _ it' item rest hvalid hitem _ hnext hrest =>
      have hvalid : it.valid = true := hvalid
      have hmoved : it.parseEntry = it' := congrArg Prod.snd hnext
      rw [← hmoved] at hrest
      rw [standing, if_pos hvalid, ← hitem, hrest.unique (yields_parseEntry _ it hholds rfl)]
      rfl

theorem standing_parseEntry {it : SSTableIterator} {es : List Entry}
    (hholds : it.table.Holds es) :
    it.parseEntry.standing = (it.blockData ++ it.after).map itemOf := by
  have htable : it.parseEntry.table.Holds es := by rwa [table_parseEntry]
  exact standing_eq htable (yields_parseEntry _ it hholds rfl)

end SSTableIterator

namespace DamagedTableIterator

/-- A damaged table as an iterator that makes errors: the entries behind an unreadable block are
ahead of it, and it never gets to them. -/
def traversal : Traversal DamagedTableIterator where
  ahead it items := (∃ es, it.iter.table.Holds es) ∧ items = it.iter.standing
  stays := Stays
  stands := by
    rintro it items ⟨_, rfl⟩ hvalid
    have hvalid : it.iter.valid = true := hvalid
    rw [SSTableIterator.standing, if_pos hvalid]
    exact ⟨_, rfl⟩
  valid_of_stays := by
    intro it items _ hvalid hstays
    have hnext : next it = (.error (.corruption "Block checksum mismatch"), it) :=
      (parseEntry_eq it).trans (if_pos hstays)
    rw [hnext]
    exact ⟨⟨_, rfl⟩, hvalid⟩
  ahead_next := by
    rintro it items items' ⟨⟨es, hholds⟩, rfl⟩ hvalid hpasses
    have hvalid : it.iter.valid = true := hvalid
    rcases hpasses with ⟨hstays, rfl⟩ | ⟨hmoves, rfl⟩
    · have hnext : (next it).2 = it := congrArg Prod.snd ((parseEntry_eq it).trans (if_pos hstays))
      rw [hnext]
      exact ⟨⟨es, hholds⟩, rfl⟩
    · have hnext : (next it).2 = { it with iter := it.iter.parseEntry } :=
        congrArg Prod.snd ((parseEntry_eq it).trans (if_neg hmoves))
      rw [hnext, SSTableIterator.standing_parseEntry hholds, SSTableIterator.standing,
        if_pos hvalid, SSTableIterator.table_parseEntry]
      exact ⟨⟨es, hholds⟩, rfl⟩
  ended := by
    rintro it items ⟨⟨es, hholds⟩, rfl⟩ hvalid hok hinvalid
    have hvalid : it.iter.valid = true := hvalid
    have hmoves : ¬Stays it := by
      intro hstays
      have hnext : next it = (.error (.corruption "Block checksum mismatch"), it) :=
        (parseEntry_eq it).trans (if_pos hstays)
      rw [hnext] at hok
      contradiction
    have hnext : (next it).2 = { it with iter := it.iter.parseEntry } :=
      congrArg Prod.snd ((parseEntry_eq it).trans (if_neg hmoves))
    rw [hnext] at hinvalid
    have hinvalid : it.iter.parseEntry.valid = false := hinvalid
    have hended := SSTableIterator.standing_parseEntry hholds
    rw [SSTableIterator.standing, hinvalid, if_neg Bool.false_ne_true] at hended
    rw [SSTableIterator.standing, if_pos hvalid, List.tail_cons, ← hended]

/-- Two versions of a key that fill a block, and an entry for the next one. -/
def twoBlocks : List Entry :=
  [([1], some [11]), ([1], some MemTable.wideVersion), ([2], some [20])]

/-- A table of two blocks. -/
def damagedTable : SSTable := SSTableBuilder.build 1 3 twoBlocks

theorem holds_damagedTable : damagedTable.Holds twoBlocks := SSTableBuilder.holds_build 1 3 twoBlocks

theorem blocks_damagedTable : damagedTable.blocks =
    [[([1], some [11]), ([1], some MemTable.wideVersion)], [([2], some [20])]] := by
  have hcut : ∀ wide : Bytes, wide.length = 4096 →
      SSTableBuilder.cut [] [([1], some [11]), ([1], some wide), ([2], some [20])] =
        ([[([1], some [11]), ([1], some wide)]], [([2], some [20])]) := by
    intro wide hwide
    simp [SSTableBuilder.cut, SSTableBuilder.blockSize, SSTableBuilder.blockLen,
      SSTableBuilder.encodedLen, hwide]
  rw [damagedTable, SSTableBuilder.blocks_build, SSTableBuilder.blocksOf, twoBlocks,
    hcut _ MemTable.length_wideVersion]
  rfl

theorem length_blockMetas_damagedTable : damagedTable.blockMetas.length = 2 := by
  rw [holds_damagedTable.length_blockMetas, blocks_damagedTable]
  rfl

/-- The iterator over it on its first entry, and on its second. -/
def onFirst : DamagedTableIterator :=
  { iter :=
      { table := damagedTable, blockIdx := 0, blockData := [([1], some MemTable.wideVersion)]
        currentKey := ⟨[1], 0⟩, currentValue := some [11], valid := true }
    unreadable := [1] }

/-- The iterator on the last entry of the first block, with the second block unreadable. -/
def onSecond : DamagedTableIterator :=
  { iter :=
      { table := damagedTable, blockIdx := 0, blockData := []
        currentKey := ⟨[1], 0⟩, currentValue := some MemTable.wideVersion, valid := true }
    unreadable := [1] }

theorem new_damagedTable : new damagedTable [1] = .ok onFirst := by
  simp [new, loadBlock, parseEntry, SSTableIterator.loadBlock, SSTableIterator.takeEntry,
    SSTable.readBlock, blocks_damagedTable, length_blockMetas_damagedTable, onFirst]

theorem next_onFirst : next onFirst = (.ok (), onSecond) := rfl

theorem next_onSecond :
    next onSecond = (.error (.corruption "Block checksum mismatch"), onSecond) := by
  refine (parseEntry_eq onSecond).trans (if_pos ⟨rfl, ?_, List.mem_singleton_self 1⟩)
  show 0 + 1 < damagedTable.blockMetas.length
  rw [length_blockMetas_damagedTable]
  omega

theorem fresh_onFirst : traversal.Fresh onFirst onFirst.iter.standing where
  ahead := ⟨⟨twoBlocks, holds_damagedTable⟩, rfl⟩
  eq_nil hvalid := absurd hvalid (show ¬true = false by decide)

end DamagedTableIterator

namespace SnapshotIterator

open DamagedTableIterator

theorem endsWell_iff_onFirst :
    EndsWell traversal onFirst onFirst.iter.standing 0 ↔
      GetsOff traversal onFirst onFirst.iter.standing 0 :=
  endsWell_iff traversal fresh_onFirst 0

/-- Behind the first version of the key the loop passes over the second, which cannot be left, for
ever: nothing ends the call of `next`, and the error is not returned. -/
theorem not_endsWell_onFirst :
    DamagedTableIterator.new damagedTable [1] = .ok onFirst ∧
      turn (⟨onSecond, 0, some [1]⟩ : SnapshotIterator DamagedTableIterator) =
        some ⟨onSecond, 0, some [1]⟩ ∧
      ¬EndsWell traversal onFirst onFirst.iter.standing 0 := by
  have hstands : turn (⟨onFirst, 0, none⟩ : SnapshotIterator DamagedTableIterator) = none := rfl
  have hspins : turn (⟨onSecond, 0, some [1]⟩ : SnapshotIterator DamagedTableIterator) =
      some ⟨onSecond, 0, some [1]⟩ := by
    rw [turn_of_dominated rfl rfl, next_onSecond]
  refine ⟨new_damagedTable, hspins, ?_⟩
  intro hends
  have hnew : Reached traversal onFirst onFirst.iter.standing 0 false .caller ⟨onFirst, 0, none⟩
      onFirst.iter.standing := Reached.stopped Reached.created hstands
  obtain ⟨items, hpasses⟩ := exists_passes (traversal.stays onFirst) onFirst.iter.standing
  have hloop := Reached.moved hnew rfl next_onFirst hpasses
  exact not_settles_of_turn_self hspins (hends.settles hloop)

end SnapshotIterator
end Crabstash

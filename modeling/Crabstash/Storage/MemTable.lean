import Crabstash.Common.Key
import Crabstash.Foundations.SortedMap

/-!
# The memtable

`MemTable` of `memtable.rs`: an ordered map from versioned keys to a value or a
tombstone (`None`), and the accounted size.  `put` and `delete` differ only in
the value they store, so both are `record`.

A read at a timestamp is one step into the map: versions of a key are adjacent
and newest first, so the first entry from `(key, ts)` on is the version wanted,
if it is a version of the key at all (`getAtTs_eq`).  Reads that are not
limited by a timestamp see the `newest` version.
-/

namespace Crabstash

/-- The versions in the order of `Key`, and the size counted for them. -/
structure MemTable where
  map : SortedMap Key (Option Bytes)
  size : ℕ

namespace MemTable

/-- `MemTable::new`. -/
def new : MemTable := { map := ∅, size := 0 }

/-- The range loop of `get_at_ts`: stop at the first entry of another key, return
the first entry that is old enough. -/
def findVersion (keyData : Bytes) (ts : ℕ) : List (Key × Option Bytes) → Option (Option Bytes)
  | [] => none
  | (entryKey, value) :: rest =>
      if entryKey.data ≠ keyData then none
      else if entryKey.timestamp ≤ ts then some value
      else findVersion keyData ts rest

/-- `None`: no version; `Some(None)`: a tombstone. -/
def getAtTs (m : MemTable) (keyData : Bytes) (ts : ℕ) : Option (Option Bytes) :=
  findVersion keyData ts (m.map.range ⟨keyData, ts⟩)

/-- What `put` and `delete` have in common: store a version and account for its
key and value bytes. -/
def record (m : MemTable) (key : Key) (value : Option Bytes) : MemTable :=
  { map := m.map.insert key value
    size := m.size + (key.data.length + (value.map List.length).getD 0) }

/-- `put`. -/
def put (m : MemTable) (key : Key) (value : Bytes) : MemTable := m.record key (some value)

/-- `delete`: a version without a value. -/
def delete (m : MemTable) (key : Key) : MemTable := m.record key none

/-- `iter`, in the order of the map. -/
def iter (m : MemTable) : List (Key × Option Bytes) := m.map.entries

/-- `len`. -/
def len (m : MemTable) : ℕ := m.map.entries.length

/-- The version a read without a timestamp limit sees. -/
def newest (m : MemTable) (keyData : Bytes) : Option (Option Bytes) :=
  (m.map.firstWhere fun key => key.data = keyData).map Prod.snd

/-! ## Reads as searches -/

private theorem findVersion_filter {keyData : Bytes} {ts : ℕ} {l : List (Key × Option Bytes)}
    (hl : l.Pairwise fun a b => a.1 < b.1) :
    findVersion keyData ts (l.filter fun e => (⟨keyData, ts⟩ : Key) ≤ e.1) =
      (l.find? fun e => decide (e.1.data = keyData ∧ e.1.timestamp ≤ ts)).map Prod.snd := by
  induction l with
  | nil => rfl
  | cons e rest ih =>
      obtain ⟨entryKey, value⟩ := e
      have hrest := List.pairwise_cons.mp hl
      by_cases hfrom : (⟨keyData, ts⟩ : Key) ≤ entryKey
      · simp only [List.filter_cons, hfrom, decide_true, if_true, List.find?_cons]
        rw [findVersion]
        rcases Key.le_iff.mp hfrom with hlt | ⟨heq, hle⟩
        · -- past the key: every later entry is past it as well
          simp only at hlt
          have hnone : (rest.find? fun e =>
              decide (e.1.data = keyData ∧ e.1.timestamp ≤ ts)) = none := by
            apply List.find?_eq_none.mpr
            intro e he
            have hle := Key.data_le_of_le (hrest.1 e he).le
            have hne : e.1.data ≠ keyData := (hlt.trans_le hle).ne'
            simp [hne]
          rw [hnone]
          simp [hlt.ne']
        · simp only at heq hle
          simp [heq.symm, hle]
      · have hnot : ¬ (entryKey.data = keyData ∧ entryKey.timestamp ≤ ts) := by
          rintro ⟨hdata, hts⟩
          exact hfrom (Key.le_iff.mpr (Or.inr ⟨hdata.symm, hts⟩))
        simp only [List.filter_cons, hfrom, decide_false, Bool.false_eq_true, if_false,
          List.find?_cons, hnot]
        exact ih hrest.2

/-- A read at `ts` finds the first version of the key that is not newer than `ts`. -/
theorem getAtTs_eq (m : MemTable) (keyData : Bytes) (ts : ℕ) :
    m.getAtTs keyData ts =
      (m.map.firstWhere fun key =>
        decide (key.data = keyData ∧ key.timestamp ≤ ts)).map Prod.snd :=
  findVersion_filter m.map.sorted

theorem getAtTs_eq_newest {m : MemTable} {keyData : Bytes} {ts : ℕ}
    (hle : ∀ e ∈ m.iter, e.1.data = keyData → e.1.timestamp ≤ ts) :
    m.getAtTs keyData ts = m.newest keyData := by
  rw [getAtTs_eq, newest]
  refine congrArg (Option.map Prod.snd) (SortedMap.firstWhere_congr fun e he => ?_)
  refine decide_eq_decide.mpr ⟨And.left, fun hdata => ⟨hdata, ?_⟩⟩
  exact hle e he hdata

/-- A read at a timestamp finds a version when one is old enough, and then the newest such. -/
theorem getAtTs_eq_some_iff {m : MemTable} {keyData : Bytes} {ts : ℕ} {effect : Option Bytes} :
    m.getAtTs keyData ts = some effect ↔ ∃ version ≤ ts, (⟨keyData, version⟩, effect) ∈ m.iter ∧
      ∀ e ∈ m.iter, e.1.data = keyData → e.1.timestamp ≤ ts → e.1.timestamp ≤ version := by
  rw [getAtTs_eq, Option.map_eq_some_iff]
  constructor
  · rintro ⟨⟨⟨data, version⟩, _⟩, hfirst, rfl⟩
    obtain ⟨hmem, hfits, hleast⟩ := SortedMap.firstWhere_eq_some_iff.mp hfirst
    obtain ⟨rfl, hold⟩ := of_decide_eq_true hfits
    refine ⟨version, hold, hmem, ?_⟩
    intro e he hdata hle
    rcases Key.le_iff.mp (hleast e he (decide_eq_true ⟨hdata, hle⟩)) with hlt | ⟨_, hnewer⟩
    · exact absurd hdata hlt.ne'
    · exact hnewer
  · rintro ⟨version, hold, hmem, hnewest⟩
    refine ⟨(⟨keyData, version⟩, effect), SortedMap.firstWhere_eq_some_iff.mpr
      ⟨hmem, decide_eq_true ⟨rfl, hold⟩, ?_⟩, rfl⟩
    intro e he hfits
    obtain ⟨hdata, hle⟩ := of_decide_eq_true hfits
    exact Key.le_iff.mpr (Or.inr ⟨hdata.symm, hnewest e he hdata hle⟩)

theorem getAtTs_eq_none_iff {m : MemTable} {keyData : Bytes} {ts : ℕ} :
    m.getAtTs keyData ts = none ↔ ∀ e ∈ m.iter, e.1.data = keyData → ts < e.1.timestamp := by
  rw [getAtTs_eq, Option.map_eq_none_iff, SortedMap.firstWhere_eq_none_iff]
  refine forall₂_congr fun e _ => ?_
  rw [decide_eq_false_iff_not, not_and, not_le]

theorem newest_eq_none_iff {m : MemTable} {keyData : Bytes} :
    m.newest keyData = none ↔ ∀ e ∈ m.iter, e.1.data ≠ keyData := by
  rw [newest, Option.map_eq_none_iff, SortedMap.firstWhere_eq_none_iff]
  simp [iter]

theorem newest_eq_some_iff {m : MemTable} {keyData : Bytes} {value : Option Bytes} :
    m.newest keyData = some value ↔ ∃ ts, (⟨keyData, ts⟩, value) ∈ m.iter ∧
      ∀ e ∈ m.iter, e.1.data = keyData → e.1.timestamp ≤ ts := by
  rw [newest, Option.map_eq_some_iff]
  constructor
  · rintro ⟨⟨⟨data, ts⟩, _⟩, hfirst, rfl⟩
    obtain ⟨hmem, hdata, hleast⟩ := SortedMap.firstWhere_eq_some_iff.mp hfirst
    have hdata : data = keyData := of_decide_eq_true hdata
    subst hdata
    refine ⟨ts, hmem, fun e he hkey => ?_⟩
    rcases Key.le_iff.mp (hleast e he (decide_eq_true hkey)) with hlt | ⟨_, hle⟩
    · exact absurd hkey hlt.ne'
    · exact hle
  · rintro ⟨ts, hmem, hnewest⟩
    refine ⟨(⟨keyData, ts⟩, value), SortedMap.firstWhere_eq_some_iff.mpr
      ⟨hmem, decide_eq_true rfl, fun e he hkey => ?_⟩, rfl⟩
    have hkey : e.1.data = keyData := of_decide_eq_true hkey
    exact Key.le_iff.mpr (Or.inr ⟨hkey.symm, hnewest e he hkey⟩)

/-! ## What a write changes -/

theorem mem_iter_record {m : MemTable} {key : Key} {value : Option Bytes}
    {e : Key × Option Bytes} :
    e ∈ (m.record key value).iter ↔ e = (key, value) ∨ e ∈ m.iter ∧ e.1 ≠ key :=
  SortedMap.mem_insert

@[simp] theorem iter_new : new.iter = [] := rfl

@[simp] theorem newest_new (keyData : Bytes) : new.newest keyData = none := rfl

/-- A write with a timestamp no version of the key exceeds becomes the newest version. -/
theorem newest_record_self {m : MemTable} {key : Key} (value : Option Bytes)
    (hle : ∀ e ∈ m.iter, e.1.data = key.data → e.1.timestamp ≤ key.timestamp) :
    (m.record key value).newest key.data = some value := by
  rw [newest, record, SortedMap.firstWhere_insert_of_least]
  · rfl
  · exact decide_eq_true rfl
  · intro e he hkey
    have hkey : e.1.data = key.data := of_decide_eq_true hkey
    exact Key.le_iff.mpr (Or.inr ⟨hkey.symm, hle e he hkey⟩)

theorem newest_record_of_ne {m : MemTable} {key : Key} (value : Option Bytes) {keyData : Bytes}
    (hne : key.data ≠ keyData) : (m.record key value).newest keyData = m.newest keyData := by
  rw [newest, record, SortedMap.firstWhere_insert_of_not, newest]
  exact decide_eq_false hne

/-- A write that is older than some version of its key is not seen by an unlimited read. -/
theorem newest_record_of_older {m : MemTable} {key : Key} (value : Option Bytes)
    (hnewer : ∃ e ∈ m.iter, e.1.data = key.data ∧ key.timestamp < e.1.timestamp) :
    (m.record key value).newest key.data = m.newest key.data := by
  obtain ⟨e, he, hdata, hlt⟩ := hnewer
  rw [newest, newest, record, SortedMap.firstWhere_insert_of_below]
  exact ⟨e, he, decide_eq_true hdata, Key.lt_iff.mpr (Or.inr ⟨hdata, hlt⟩)⟩

/-- A write that is older than a version seen at `ts` is not seen at `ts`. -/
theorem getAtTs_record_of_older {m : MemTable} {key : Key} (value : Option Bytes) {ts : ℕ}
    (hnewer : ∃ e ∈ m.iter, e.1.data = key.data ∧ key.timestamp < e.1.timestamp ∧
      e.1.timestamp ≤ ts) :
    (m.record key value).getAtTs key.data ts = m.getAtTs key.data ts := by
  obtain ⟨e, he, hdata, hlt, hle⟩ := hnewer
  rw [getAtTs_eq, getAtTs_eq, record, SortedMap.firstWhere_insert_of_below]
  exact ⟨e, he, decide_eq_true ⟨hdata, hle⟩, Key.lt_iff.mpr (Or.inr ⟨hdata, hlt⟩)⟩

/-- A write to another key, or with a timestamp above `ts`, is not seen at `ts`. -/
theorem getAtTs_record_of_not {m : MemTable} {key : Key} (value : Option Bytes)
    {keyData : Bytes} {ts : ℕ} (hnot : key.data = keyData → ts < key.timestamp) :
    (m.record key value).getAtTs keyData ts = m.getAtTs keyData ts := by
  rw [getAtTs_eq, getAtTs_eq, record, SortedMap.firstWhere_insert_of_not]
  exact decide_eq_false fun ⟨hdata, hle⟩ => absurd (hnot hdata) (not_lt.mpr hle)

end MemTable
end Crabstash

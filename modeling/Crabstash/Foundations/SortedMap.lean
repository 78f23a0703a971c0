import Mathlib.Order.Lattice
import Mathlib.Data.List.Basic

/-!
# Ordered maps as sorted entry lists

An ordered map is its list of entries in strictly increasing key order; the
order is a field, so an unsorted map cannot be built.  `insert` replaces the
value of a key that is already present.

Readers of such a map look for the *first* entry whose key satisfies some
predicate (a key equal to a given one, a key in a range, a version that is old
enough).  `firstWhere` is that search, `firstWhere_eq_some_iff` says it finds
the least such key, and `firstWhere_insert_of_not`, `firstWhere_insert_of_least`
say what an insertion does to it.
-/

namespace Crabstash

/-- A finite map, its entries in strictly increasing key order. -/
structure SortedMap (κ ν : Type*) [LinearOrder κ] where
  entries : List (κ × ν)
  sorted : entries.Pairwise fun a b => a.1 < b.1

namespace SortedMap

variable {κ ν : Type*} [LinearOrder κ]

/-- Insertion into a sorted entry list, replacing the entry of an equal key. -/
def insertEntries (k : κ) (v : ν) : List (κ × ν) → List (κ × ν)
  | [] => [(k, v)]
  | e :: rest =>
      if k < e.1 then (k, v) :: e :: rest
      else if k = e.1 then (k, v) :: rest
      else e :: insertEntries k v rest

theorem mem_of_mem_insertEntries {k : κ} {v : ν} {e : κ × ν} {l : List (κ × ν)}
    (h : e ∈ insertEntries k v l) : e = (k, v) ∨ e ∈ l := by
  induction l with
  | nil => simpa [insertEntries] using h
  | cons e' rest ih =>
      rw [insertEntries] at h
      split at h
      · simpa using h
      · split at h
        · rcases List.mem_cons.mp h with rfl | h
          · exact Or.inl rfl
          · exact Or.inr (List.mem_cons_of_mem _ h)
        · rcases List.mem_cons.mp h with rfl | h
          · exact Or.inr (List.mem_cons_self ..)
          · exact (ih h).imp_right (List.mem_cons_of_mem _)

theorem sorted_insertEntries (k : κ) (v : ν) {l : List (κ × ν)}
    (hl : l.Pairwise fun a b => a.1 < b.1) :
    (insertEntries k v l).Pairwise fun a b => a.1 < b.1 := by
  induction l with
  | nil => simp [insertEntries]
  | cons e rest ih =>
      have hrest := List.pairwise_cons.mp hl
      rw [insertEntries]
      split
      case isTrue hlt =>
        refine List.pairwise_cons.mpr ⟨?_, hl⟩
        intro e' he'
        rcases List.mem_cons.mp he' with rfl | he'
        · exact hlt
        · exact hlt.trans (hrest.1 e' he')
      case isFalse hnlt =>
        split
        case isTrue heq =>
          subst heq
          exact List.pairwise_cons.mpr ⟨hrest.1, hrest.2⟩
        case isFalse hne =>
          refine List.pairwise_cons.mpr ⟨?_, ih hrest.2⟩
          intro e' he'
          rcases mem_of_mem_insertEntries he' with rfl | he'
          · exact lt_of_le_of_ne (not_lt.mp hnlt) (Ne.symm hne)
          · exact hrest.1 e' he'

/-- The map without entries. -/
def empty : SortedMap κ ν := ⟨[], List.Pairwise.nil⟩

instance : EmptyCollection (SortedMap κ ν) := ⟨empty⟩

/-- The entry comes to its place, and replaces one with an equal key. -/
def insert (m : SortedMap κ ν) (k : κ) (v : ν) : SortedMap κ ν :=
  ⟨insertEntries k v m.entries, sorted_insertEntries k v m.sorted⟩

/-- The entries from `lo` on: an iteration over `lo..`. -/
def range (m : SortedMap κ ν) (lo : κ) : List (κ × ν) := m.entries.filter fun e => lo ≤ e.1

/-- The first entry, in key order, whose key satisfies `p`. -/
def firstWhere (m : SortedMap κ ν) (p : κ → Bool) : Option (κ × ν) :=
  m.entries.find? fun e => p e.1

@[simp] theorem entries_empty : (∅ : SortedMap κ ν).entries = [] := rfl

/-! ### Membership -/

theorem mem_insert {m : SortedMap κ ν} {k : κ} {v : ν} {e : κ × ν} :
    e ∈ (m.insert k v).entries ↔ e = (k, v) ∨ e ∈ m.entries ∧ e.1 ≠ k := by
  obtain ⟨l, hl⟩ := m
  simp only [insert]
  induction l with
  | nil => simp [insertEntries]
  | cons e' rest ih =>
      have hrest := List.pairwise_cons.mp hl
      have ih := ih hrest.2
      have hfresh : ∀ e'' ∈ rest, e'.1 ≠ e''.1 := fun e'' h => (hrest.1 e'' h).ne
      rw [insertEntries]
      split
      case isTrue hlt =>
        have hne : ∀ e'' ∈ e' :: rest, e''.1 ≠ k := by
          intro e'' h
          rcases List.mem_cons.mp h with rfl | h
          · exact hlt.ne'
          · exact (hlt.trans (hrest.1 e'' h)).ne'
        grind
      case isFalse hnlt => grind

/-! ### Searching -/

theorem firstWhere_eq_some_iff {m : SortedMap κ ν} {p : κ → Bool} {e : κ × ν} :
    m.firstWhere p = some e ↔
      e ∈ m.entries ∧ p e.1 = true ∧ ∀ e' ∈ m.entries, p e'.1 = true → e.1 ≤ e'.1 := by
  obtain ⟨l, hl⟩ := m
  simp only [firstWhere]
  induction l with
  | nil => simp
  | cons e' rest ih =>
      have hrest := List.pairwise_cons.mp hl
      have ih := ih hrest.2
      rw [List.find?_cons]
      cases hp : p e'.1 with
      | true =>
          simp only [Option.some.injEq]
          constructor
          · rintro rfl
            refine ⟨List.mem_cons_self .., hp, fun e'' h _ => ?_⟩
            rcases List.mem_cons.mp h with rfl | h
            · exact le_rfl
            · exact (hrest.1 e'' h).le
          · rintro ⟨hmem, _, hleast⟩
            rcases List.mem_cons.mp hmem with rfl | hmem
            · rfl
            · exact absurd (hleast e' (List.mem_cons_self ..) hp) (not_le.mpr (hrest.1 e hmem))
      | false =>
          rw [ih]
          grind

theorem firstWhere_eq_none_iff {m : SortedMap κ ν} {p : κ → Bool} :
    m.firstWhere p = none ↔ ∀ e ∈ m.entries, p e.1 = false := by
  simp [firstWhere]

theorem firstWhere_congr {m : SortedMap κ ν} {p q : κ → Bool}
    (h : ∀ e ∈ m.entries, p e.1 = q e.1) : m.firstWhere p = m.firstWhere q := by
  obtain ⟨l, hl⟩ := m
  simp only [firstWhere] at h ⊢
  clear hl
  induction l with
  | nil => rfl
  | cons e rest ih =>
      rw [List.find?_cons, List.find?_cons, h e (List.mem_cons_self ..),
        ih fun e' he' => h e' (List.mem_cons_of_mem _ he')]

/-- Inserting a key outside the predicate does not change what is found. -/
theorem firstWhere_insert_of_not (m : SortedMap κ ν) (p : κ → Bool) {k : κ} (hk : p k = false)
    (v : ν) : (m.insert k v).firstWhere p = m.firstWhere p := by
  obtain ⟨l, hl⟩ := m
  simp only [firstWhere, insert]
  clear hl
  induction l with
  | nil => simp [insertEntries, hk]
  | cons e rest ih =>
      rw [insertEntries]
      split
      · simp [List.find?_cons, hk]
      · split
        case isTrue heq => simp [hk, ← heq]
        case isFalse => simp [List.find?_cons, ih]

/-- Inserting a key of the predicate that is below all the others makes it the
one that is found. -/
theorem firstWhere_insert_of_least (m : SortedMap κ ν) (p : κ → Bool) {k : κ} (hk : p k = true)
    (v : ν) (hleast : ∀ e ∈ m.entries, p e.1 = true → k ≤ e.1) :
    (m.insert k v).firstWhere p = some (k, v) := by
  refine firstWhere_eq_some_iff.mpr ⟨mem_insert.mpr (Or.inl rfl), hk, ?_⟩
  intro e he hp
  rcases mem_insert.mp he with rfl | ⟨he, _⟩
  · exact le_rfl
  · exact hleast e he hp

/-- Inserting a key that is not the least of the predicate does not change what is found. -/
theorem firstWhere_insert_of_below {m : SortedMap κ ν} {p : κ → Bool} {k : κ} (v : ν)
    (hbelow : ∃ e ∈ m.entries, p e.1 = true ∧ e.1 < k) :
    (m.insert k v).firstWhere p = m.firstWhere p := by
  obtain ⟨e, he, hpe, hlt⟩ := hbelow
  cases hfirst : m.firstWhere p with
  | none =>
      have hnot := firstWhere_eq_none_iff.mp hfirst e he
      rw [hpe] at hnot
      contradiction
  | some first =>
      obtain ⟨hmem, hp, hleast⟩ := firstWhere_eq_some_iff.mp hfirst
      have hfirst_lt : first.1 < k := (hleast e he hpe).trans_lt hlt
      refine firstWhere_eq_some_iff.mpr ⟨mem_insert.mpr (Or.inr ⟨hmem, hfirst_lt.ne⟩), hp, ?_⟩
      intro e' he' hp'
      rcases mem_insert.mp he' with rfl | ⟨he', _⟩
      · exact hfirst_lt.le
      · exact hleast e' he' hp'

end SortedMap
end Crabstash

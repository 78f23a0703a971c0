import Mathlib.Data.List.AList

/-!
# Hash maps

A hash map is an association list without double keys: what it iterates over comes in an
order that says nothing.  `OnlyAt` is how a map may change in a step that is about one key,
`retain` goes over all of them, and `countWhere` counts some.
-/

namespace Crabstash

/-- `HashMap` and `DashMap`, with an iteration order of their own. -/
abbrev HashMap (κ ν : Type) := AList fun _ : κ => ν

theorem erase_insert_self {κ ν : Type} [DecidableEq κ] (k : κ) (v : ν) (m : HashMap κ ν) :
    (m.insert k v).erase k = m.erase k := by
  apply AList.ext
  show (m.insert k v).entries.kerase k = m.entries.kerase k
  rw [AList.entries_insert]
  exact List.kerase_cons_eq rfl

/-- Of an erased map only other entries are left. -/
theorem lookup_erase_eq_some_iff {κ ν : Type} [DecidableEq κ] {m : HashMap κ ν} {k k' : κ} {v : ν} :
    (m.erase k).lookup k' = some v ↔ k' ≠ k ∧ m.lookup k' = some v := by
  by_cases heq : k' = k
  · rw [heq, AList.lookup_erase]
    simp
  · rw [AList.lookup_erase_ne heq]
    simp [heq]

theorem lookup_of_erase {κ ν : Type} [DecidableEq κ] {m : HashMap κ ν} {k k' : κ} {v : ν}
    (h : (m.erase k).lookup k' = some v) : m.lookup k' = some v :=
  (lookup_erase_eq_some_iff.mp h).2

/-- An entry after an insertion is the new one or was there before. -/
theorem lookup_insert_cases {κ ν : Type} [DecidableEq κ] {m : HashMap κ ν} {k k' : κ} {v v' : ν}
    (h : (m.insert k v).lookup k' = some v') : k' = k ∧ v = v' ∨ m.lookup k' = some v' := by
  by_cases heq : k' = k
  · rw [heq, AList.lookup_insert] at h
    exact Or.inl ⟨heq, Option.some.inj h⟩
  · rw [AList.lookup_insert_ne heq] at h
    exact Or.inr h

theorem isSome_lookup_insert {κ ν : Type} [DecidableEq κ] (m : HashMap κ ν) (k k' : κ) (v : ν) :
    ((m.insert k v).lookup k').isSome = true ↔ k' = k ∨ (m.lookup k').isSome = true := by
  by_cases heq : k' = k
  · rw [heq, AList.lookup_insert]
    exact iff_of_true rfl (Or.inl rfl)
  · rw [AList.lookup_insert_ne heq]
    exact ⟨Or.inr, fun h => h.resolve_left heq⟩

/-! ## Two maps -/

section

variable {κ ν ν' : Type} [DecidableEq κ] {R : ν → ν' → Prop} {m : HashMap κ ν} {m' : HashMap κ ν'}
  {k k' : κ}

theorem rel_lookup_insert {v : ν} {v' : ν'} (hv : R v v')
    (h : k' ≠ k → Option.Rel R (m.lookup k') (m'.lookup k')) :
    Option.Rel R ((m.insert k v).lookup k') ((m'.insert k v').lookup k') := by
  by_cases heq : k' = k
  · subst heq
    rw [AList.lookup_insert, AList.lookup_insert]
    exact Option.Rel.some hv
  · rw [AList.lookup_insert_ne heq, AList.lookup_insert_ne heq]
    exact h heq

theorem rel_lookup_erase (h : k' ≠ k → Option.Rel R (m.lookup k') (m'.lookup k')) :
    Option.Rel R ((m.erase k).lookup k') ((m'.erase k).lookup k') := by
  by_cases heq : k' = k
  · subst heq
    rw [AList.lookup_erase, AList.lookup_erase]
    exact Option.Rel.none
  · rw [AList.lookup_erase_ne heq, AList.lookup_erase_ne heq]
    exact h heq

theorem lookup_insert_congr {m' : HashMap κ ν} {v : ν}
    (h : k' ≠ k → m'.lookup k' = m.lookup k') :
    (m'.insert k v).lookup k' = (m.insert k v).lookup k' := by
  by_cases heq : k' = k
  · rw [heq, AList.lookup_insert, AList.lookup_insert]
  · rw [AList.lookup_insert_ne heq, AList.lookup_insert_ne heq]
    exact h heq

theorem lookup_erase_congr {m' : HashMap κ ν} (h : k' ≠ k → m'.lookup k' = m.lookup k') :
    (m'.erase k).lookup k' = (m.erase k).lookup k' := by
  by_cases heq : k' = k
  · rw [heq, AList.lookup_erase, AList.lookup_erase]
  · rw [AList.lookup_erase_ne heq, AList.lookup_erase_ne heq]
    exact h heq

end

/-! ## Going over a map -/

/-- `retain`, with a closure that may change what it keeps. -/
def HashMap.retain {κ ν : Type} (m : HashMap κ ν) (keep : κ → ν → Option ν) : HashMap κ ν where
  entries := m.entries.filterMap fun e => (keep e.1 e.2).map fun v => ⟨e.1, v⟩
  nodupKeys := by
    refine List.Nodup.sublist ?_ m.nodupKeys
    induction m.entries with
    | nil => exact List.Sublist.refl _
    | cons e rest ih =>
        rw [List.filterMap_cons]
        cases keep e.1 e.2 with
        | none => exact ih.cons e.1
        | some v => exact ih.cons_cons e.1

theorem lookup_retain {κ ν : Type} [DecidableEq κ] (m : HashMap κ ν) (keep : κ → ν → Option ν)
    (k : κ) : (m.retain keep).lookup k = (m.lookup k).bind (keep k) := by
  apply Option.ext
  intro v
  rw [Option.bind_eq_some_iff]
  simp only [← Option.mem_def, AList.mem_lookup_iff]
  unfold HashMap.retain
  simp only [List.mem_filterMap, Option.mem_def, Option.map_eq_some_iff]
  constructor
  · rintro ⟨⟨k', v'⟩, hmem, kept, hkept, heq⟩
    cases heq
    exact ⟨v', hmem, hkept⟩
  · rintro ⟨v', hmem, hkept⟩
    exact ⟨⟨k, v'⟩, hmem, v, hkept, rfl⟩

/-! ## Changing one key -/

/-- The value at a key, if there is one, changes. -/
def HashMap.amend {κ ν : Type} [DecidableEq κ] (m : HashMap κ ν) (k : κ) (f : ν → ν) :
    HashMap κ ν :=
  match m.lookup k with
  | none => m
  | some v => m.insert k (f v)

@[simp] theorem lookup_amend_self {κ ν : Type} [DecidableEq κ] (m : HashMap κ ν) (k : κ)
    (f : ν → ν) : (m.amend k f).lookup k = (m.lookup k).map f := by
  unfold HashMap.amend
  cases hlookup : m.lookup k with
  | none => simp [hlookup]
  | some v => simp

theorem lookup_amend_ne {κ ν : Type} [DecidableEq κ] (m : HashMap κ ν) {k k' : κ} (f : ν → ν)
    (hne : k' ≠ k) : (m.amend k f).lookup k' = m.lookup k' := by
  unfold HashMap.amend
  cases m.lookup k with
  | none => rfl
  | some v => exact AList.lookup_insert_ne hne

theorem rel_lookup_amend {κ ν ν' : Type} [DecidableEq κ] {R : ν → ν' → Prop} {m : HashMap κ ν}
    {m' : HashMap κ ν'} {f : ν → ν} {f' : ν' → ν'} {k' : κ}
    (hf : ∀ v v', R v v' → R (f v) (f' v')) (h : Option.Rel R (m.lookup k') (m'.lookup k'))
    (k : κ) : Option.Rel R ((m.amend k f).lookup k') ((m'.amend k f').lookup k') := by
  by_cases heq : k' = k
  · subst heq
    rw [lookup_amend_self, lookup_amend_self]
    generalize m.lookup k' = before at h
    generalize m'.lookup k' = before' at h
    cases h with
    | none => exact Option.Rel.none
    | some hv => exact Option.Rel.some (hf _ _ hv)
  · rw [lookup_amend_ne _ _ heq, lookup_amend_ne _ _ heq]
    exact h

theorem lookup_amend_id {κ ν : Type} [DecidableEq κ] (m : HashMap κ ν) (k k' : κ) :
    (m.amend k id).lookup k' = m.lookup k' := by
  by_cases heq : k' = k
  · rw [heq, lookup_amend_self, Option.map_id, id]
  · exact lookup_amend_ne m id heq

/-- The map changes at most at the key, and not if the key is not in it. -/
def OnlyAt {κ ν : Type} [DecidableEq κ] (k : κ) (m m' : HashMap κ ν) : Prop :=
  ∀ k', k' ≠ k ∨ m.lookup k' = none → m'.lookup k' = m.lookup k'

section

variable {κ ν : Type} [DecidableEq κ] {k : κ} {m m' m'' : HashMap κ ν}

theorem OnlyAt.refl (k : κ) (m : HashMap κ ν) : OnlyAt k m m := fun _ _ => rfl

theorem OnlyAt.trans (h : OnlyAt k m m') (h' : OnlyAt k m' m'') : OnlyAt k m m'' := by
  intro k' hk'
  have hfirst := h k' hk'
  rw [← hfirst]
  apply h'
  rw [hfirst]
  exact hk'

theorem onlyAt_erase (k : κ) (m : HashMap κ ν) : OnlyAt k m (m.erase k) := by
  intro k' hk'
  by_cases heq : k' = k
  · rw [heq, AList.lookup_erase, ← heq, hk'.resolve_left (fun hne => hne heq)]
  · exact AList.lookup_erase_ne heq

theorem onlyAt_insert {v : ν} (h : m.lookup k = some v) (v' : ν) : OnlyAt k m (m.insert k v') := by
  intro k' hk'
  have hne : k' ≠ k := by
    rintro rfl
    have hnone := hk'.resolve_left fun hne => hne rfl
    rw [h] at hnone
    contradiction
  exact AList.lookup_insert_ne hne

end

/-! ## Counting in a map -/

/-- The number of values with the property. -/
def HashMap.countWhere {κ ν : Type} (m : HashMap κ ν) (p : ν → Bool) : ℕ :=
  m.entries.countP fun e => p e.2

section

variable {κ ν : Type} [DecidableEq κ]

theorem countWhere_erase (m : HashMap κ ν) (k : κ) (p : ν → Bool) :
    HashMap.countWhere (m.erase k) p + (if (m.lookup k).any p then 1 else 0) =
      m.countWhere p := by
  show (m.entries.kerase k).countP (fun e => p e.2) +
    (if (m.entries.dlookup k).any p then 1 else 0) = m.entries.countP fun e => p e.2
  induction m.entries with
  | nil => rfl
  | cons e rest ih =>
      obtain ⟨k', v⟩ := e
      by_cases hkey : k = k'
      · subst hkey
        have hrest : List.kerase k (⟨k, v⟩ :: rest) = rest := List.kerase_cons_eq rfl
        rw [hrest, List.dlookup_cons_eq, List.countP_cons]
        rfl
      · have hrest : List.kerase k (⟨k', v⟩ :: rest) = ⟨k', v⟩ :: List.kerase k rest :=
          List.kerase_cons_ne hkey
        rw [hrest, List.dlookup_cons_ne _ _ hkey, List.countP_cons, List.countP_cons, ← ih]
        omega

theorem countWhere_insert (m : HashMap κ ν) (k : κ) (v : ν) (p : ν → Bool) :
    HashMap.countWhere (m.insert k v) p =
      HashMap.countWhere (m.erase k) p + if p v then 1 else 0 := by
  unfold HashMap.countWhere
  rw [AList.entries_insert, List.countP_cons]
  rfl

/-- A value that is replaced by one with the same property. -/
theorem countWhere_insert_of_same {m : HashMap κ ν} {k : κ} {v v' : ν} {p : ν → Bool}
    (h : m.lookup k = some v) (hsame : p v' = p v) :
    HashMap.countWhere (m.insert k v') p = m.countWhere p := by
  have herase := countWhere_erase m k p
  rw [h, Option.any_some] at herase
  rw [countWhere_insert, hsame, herase]

/-- A value that is replaced by another. -/
theorem countWhere_replace {m : HashMap κ ν} {k : κ} {v : ν} (h : m.lookup k = some v) (v' : ν)
    (p : ν → Bool) : HashMap.countWhere (m.insert k v') p + (if p v then 1 else 0) =
      m.countWhere p + if p v' then 1 else 0 := by
  have herase := countWhere_erase m k p
  rw [h, Option.any_some] at herase
  rw [countWhere_insert, ← herase]
  omega

theorem countWhere_insert_new {m : HashMap κ ν} {k : κ} (h : m.lookup k = none) (v : ν)
    (p : ν → Bool) :
    HashMap.countWhere (m.insert k v) p = m.countWhere p + if p v then 1 else 0 := by
  have herase := countWhere_erase m k p
  rw [h] at herase
  rw [countWhere_insert, ← herase]
  rfl

theorem countWhere_eq_zero {m : HashMap κ ν} {p : ν → Bool}
    (h : ∀ k v, m.lookup k = some v → p v = false) : m.countWhere p = 0 := by
  unfold HashMap.countWhere
  rw [List.countP_eq_zero]
  rintro ⟨k, v⟩ hmem
  rw [h k v (AList.mem_lookup_iff.mpr hmem)]
  exact Bool.false_ne_true

theorem countWhere_pos {m : HashMap κ ν} {k : κ} {v : ν} {p : ν → Bool}
    (h : m.lookup k = some v) (hp : p v = true) : 0 < m.countWhere p := by
  have herase := countWhere_erase m k p
  rw [h, Option.any_some, if_pos hp] at herase
  omega

end

end Crabstash

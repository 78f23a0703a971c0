import Mathlib.Data.List.Induction
import Mathlib.Order.MinMax

/-!
# The manifest

`Manifest` of `manifest.rs`: which tables belong to which level, and the next
free numbers for table and log files.  The file is a log of lines, one for each
change; it is kept here as the list of lines that parse (`load` skips the
others).  A level without an entry is an empty one.

`load` reads the state back from the lines.  It does not see the numbers that
were allocated but never recorded.
-/

namespace Crabstash

/-- A line of the manifest file: `SST:level:id`, `DEL:level:id` or `WAL:id`. -/
inductive ManifestLine where
  | sst (level id : ℕ)
  | del (level id : ℕ)
  | wal (id : ℕ)
  deriving DecidableEq, Repr

/-- The tables of each level in the order of their lines, and the two counters. -/
structure Manifest where
  levels : ℕ → List ℕ
  nextSstId : ℕ
  nextWalId : ℕ

namespace Manifest

/-- `Manifest::create`. -/
def create : Manifest := { levels := fun _ => [], nextSstId := 1, nextWalId := 1 }

/-- What a line changes in memory: the arms of `load`, and the second halves of
`add_sst`, `remove_sst` and `add_wal`. -/
def applyLine (m : Manifest) : ManifestLine → Manifest
  | .sst level id =>
      { m with
        levels := Function.update m.levels level (m.levels level ++ [id])
        nextSstId := max m.nextSstId (id + 1) }
  | .del level id =>
      { m with levels := Function.update m.levels level ((m.levels level).filter (· ≠ id)) }
  | .wal id => { m with nextWalId := max m.nextWalId (id + 1) }

/-- What `open` makes of the lines of a file. -/
def load (lines : List ManifestLine) : Manifest := lines.foldl applyLine create

/-- `allocate_sst_id`. -/
def allocateSstId (m : Manifest) : ℕ × Manifest :=
  (m.nextSstId, { m with nextSstId := m.nextSstId + 1 })

/-- `allocate_wal_id`. -/
def allocateWalId (m : Manifest) : ℕ × Manifest :=
  (m.nextWalId, { m with nextWalId := m.nextWalId + 1 })

theorem load_append (lines : List ManifestLine) (line : ManifestLine) :
    load (lines ++ [line]) = (load lines).applyLine line := by
  simp [load]

/-- The counter of tables has passed the numbers that have a line, and no others. -/
theorem lt_nextSstId_load_iff (lines : List ManifestLine) (id : ℕ) :
    id < (load lines).nextSstId ↔
      id = 0 ∨ ∃ level id', ManifestLine.sst level id' ∈ lines ∧ id ≤ id' := by
  induction lines using List.reverseRecOn with
  | nil =>
      show id < 1 ↔ _
      simp
  | append_singleton lines line ih =>
      rw [load_append]
      cases line with
      | sst level last =>
          show id < max (load lines).nextSstId (last + 1) ↔ _
          rw [lt_max_iff, ih, Nat.lt_succ_iff]
          constructor
          · rintro ((hzero | ⟨level', id', hmem, hle⟩) | hle)
            · exact Or.inl hzero
            · exact Or.inr ⟨level', id', List.mem_append_left _ hmem, hle⟩
            · exact Or.inr ⟨level, last, List.mem_append_right _ (List.mem_singleton_self _), hle⟩
          · rintro (hzero | ⟨level', id', hmem, hle⟩)
            · exact Or.inl (Or.inl hzero)
            · rcases List.mem_append.mp hmem with hmem | hmem
              · exact Or.inl (Or.inr ⟨level', id', hmem, hle⟩)
              · obtain ⟨rfl, rfl⟩ := ManifestLine.sst.inj (List.mem_singleton.mp hmem)
                exact Or.inr hle
      | del level last => simpa [applyLine] using ih
      | wal last => simpa [applyLine] using ih

/-- Every number in a level is below the next free one, and logs are counted from one. -/
structure Numbered (m : Manifest) : Prop where
  sst : ∀ level, ∀ id ∈ m.levels level, id < m.nextSstId
  wal : 0 < m.nextWalId

theorem Numbered.applyLine {m : Manifest} (h : m.Numbered) (line : ManifestLine) :
    (m.applyLine line).Numbered := by
  cases line with
  | sst level id =>
      refine ⟨?_, h.wal⟩
      intro level' id' hid'
      simp only [Manifest.applyLine, Function.update_apply] at hid' ⊢
      split at hid'
      · rcases List.mem_append.mp hid' with hid' | hid'
        · exact lt_max_of_lt_left (h.sst level id' hid')
        · rw [List.mem_singleton.mp hid']
          exact lt_max_of_lt_right (Nat.lt_succ_self id)
      · exact lt_max_of_lt_left (h.sst level' id' hid')
  | del level id =>
      refine ⟨?_, h.wal⟩
      intro level' id' hid'
      simp only [Manifest.applyLine, Function.update_apply] at hid' ⊢
      split at hid'
      · exact h.sst level id' (List.mem_filter.mp hid').1
      · exact h.sst level' id' hid'
  | wal id => exact ⟨h.sst, lt_max_of_lt_left h.wal⟩

theorem numbered_load (lines : List ManifestLine) : (load lines).Numbered := by
  induction lines using List.reverseRecOn with
  | nil => exact ⟨fun _ _ h => absurd h List.not_mem_nil, Nat.one_pos⟩
  | append_singleton lines line ih =>
      rw [load_append]
      exact ih.applyLine line

end Manifest
end Crabstash

import Mathlib.Data.Set.Insert
import Mathlib.Data.List.Pairwise
import Mathlib.Order.Defs.LinearOrder

/-!
# Sources of versions

A store keeps versions of keys, each with a timestamp, in several sources, and a read
asks the sources one after another: the first that has a version it may see answers.
That answer is the newest one if the sources are `Ordered`: every version of a key in
one source is newer than every version of that key in the sources after it.

The lemmas say what the order asks of the two things that happen to a list of sources:
a version put into the first one (`ordered_insert_iff`), and the first one moved back
behind some others (`ordered_move_iff`).
-/

namespace Crabstash.Versions

variable {κ τ : Type*} [LinearOrder τ]

/-- Every version in `a` is newer than every version of the same key in `b`. -/
def Newer (a b : Set (κ × τ)) : Prop :=
  ∀ key t t', (key, t) ∈ a → (key, t') ∈ b → t' < t

/-- Each source has only newer versions than those behind it. -/
def Ordered (sources : List (Set (κ × τ))) : Prop := sources.Pairwise Newer

/-- `t` is the newest of the versions of `key` up to `limit`. -/
structure IsNewest (sources : List (Set (κ × τ))) (key : κ) (limit t : τ) : Prop where
  mem : ∃ a ∈ sources, (key, t) ∈ a
  le_limit : t ≤ limit
  newest : ∀ a ∈ sources, ∀ t', (key, t') ∈ a → t' ≤ limit → t' ≤ t

variable {a : Set (κ × τ)} {older newer sources : List (Set (κ × τ))} {key : κ} {limit t : τ}

/-- The first source with a version that may be seen has the newest of them all. -/
theorem isNewest_of_first (hordered : Ordered (newer ++ a :: older))
    (hnewer : ∀ b ∈ newer, ∀ t', (key, t') ∈ b → ¬ t' ≤ limit) (hfirst : IsNewest [a] key limit t) :
    IsNewest (newer ++ a :: older) key limit t := by
  obtain ⟨a', ha', hmem⟩ := hfirst.mem
  obtain rfl := List.mem_singleton.mp ha'
  have holder := List.pairwise_cons.mp (List.pairwise_append.mp hordered).2.1
  refine ⟨⟨a', List.mem_append_right _ (List.mem_cons_self ..), hmem⟩, hfirst.le_limit, ?_⟩
  intro b hb t' ht' hle
  rcases List.mem_append.mp hb with hb | hb
  · exact absurd hle (hnewer b hb t' ht')
  · rcases List.mem_cons.mp hb with rfl | hb
    · exact hfirst.newest b (List.mem_singleton_self b) t' ht' hle
    · exact (holder.1 b hb key t t' hmem ht').le

@[simp] theorem ordered_empty_cons : Ordered ((∅ : Set (κ × τ)) :: sources) ↔ Ordered sources := by
  refine List.pairwise_cons.trans (and_iff_right ?_)
  intro b _ key t t' ht
  exact absurd ht (Set.notMem_empty _)

/-- A version put into the first source. -/
theorem ordered_insert_iff :
    Ordered (insert (key, t) a :: older) ↔
      Ordered (a :: older) ∧ ∀ b ∈ older, ∀ t', (key, t') ∈ b → t' < t := by
  unfold Ordered
  rw [List.pairwise_cons, List.pairwise_cons]
  constructor
  · rintro ⟨hfirst, holder⟩
    refine ⟨⟨?_, holder⟩, ?_⟩
    · intro b hb key' s s' hs hs'
      exact hfirst b hb key' s s' (Set.mem_insert_of_mem _ hs) hs'
    · intro b hb t' ht'
      exact hfirst b hb key t t' (Set.mem_insert _ _) ht'
  · rintro ⟨⟨hfirst, holder⟩, hnew⟩
    refine ⟨?_, holder⟩
    intro b hb key' s s' hs hs'
    rcases Set.mem_insert_iff.mp hs with heq | hs
    · obtain ⟨rfl, rfl⟩ := Prod.mk.inj heq
      exact hnew b hb s' hs'
    · exact hfirst b hb key' s s' hs hs'

/-- The first source moved back behind some others: they must not have its keys. -/
theorem ordered_move_iff (hordered : Ordered (a :: (newer ++ older))) :
    Ordered (newer ++ a :: older) ↔ ∀ b ∈ newer, ∀ key t t', (key, t) ∈ a → (key, t') ∉ b := by
  obtain ⟨hfirst, hrest⟩ := List.pairwise_cons.mp hordered
  obtain ⟨hnewer, holder, hcross⟩ := List.pairwise_append.mp hrest
  unfold Ordered
  rw [List.pairwise_append]
  constructor
  · rintro ⟨_, _, hmoved⟩ b hb key t t' ht ht'
    have hlt := hfirst b (List.mem_append_left _ hb) key t t' ht ht'
    have hgt := hmoved b hb a (List.mem_cons_self ..) key t' t ht' ht
    exact absurd (hlt.trans hgt) (lt_irrefl _)
  · intro hapart
    refine ⟨hnewer, List.pairwise_cons.mpr ⟨?_, holder⟩, ?_⟩
    · intro b hb
      exact hfirst b (List.mem_append_right _ hb)
    · intro b hb c hc
      rcases List.mem_cons.mp hc with rfl | hc
      · intro key t' t ht' ht
        exact absurd ht' (hapart b hb key t t' ht)
      · exact hcross b hb c hc

end Crabstash.Versions

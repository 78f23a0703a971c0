import Crabstash.Foundations.HashMap
import Mathlib.Data.Finset.Card
import Mathlib.Logic.Relation

/-!
# Strong components

Tarjan's algorithm, for vertices of any type and the successors of each in any order.  A
vertex gets a number when the search enters it, and a low number, the smallest number on the
stack that is known to be reachable from it.  What is left without a smaller one closes a
component, which is popped from the stack.

There are two ways for the search to fail, a missing entry and a stack that runs empty, and
the recursion is on fuel; all three are `none`.  They do not occur with as much fuel as there
are unvisited vertices (`exists_strongconnect`).

The invariant of the state (`Wf`) says that the components found are the components of their
vertices, that no edge leaves them for a vertex that is not in one, and that the numbers grow
along the stack.  What a visit adds to the stack (`Visits`) are vertices that have been
expanded, that reach the visited one and are reached from it, and whose edges into the old
stack are counted in its low number.  The loop over the successors keeps the same of the part
that has been gone through (`Scans`).
-/

namespace Crabstash.StrongComponents

variable {V : Type} [DecidableEq V]

/-- `TarjanState`; the top of the stack comes first. -/
structure State (V : Type) where
  indexCounter : ℕ
  stack : List V
  indices : HashMap V ℕ
  lowlinks : HashMap V ℕ
  onStack : List V
  sccs : List (List V)

/-! ## The search -/

namespace State

/-- No vertex has been visited. -/
def new : State V :=
  { indexCounter := 0, stack := [], indices := ∅, lowlinks := ∅, onStack := [], sccs := [] }

/-- The first lines of a visit. -/
def enter (v : V) (s : State V) : State V :=
  { s with
    indexCounter := s.indexCounter + 1
    stack := v :: s.stack
    indices := s.indices.insert v s.indexCounter
    lowlinks := s.lowlinks.insert v s.indexCounter
    onStack := s.onStack.insert v }

/-- The low number of `v` becomes as small as `low`. -/
def relax (v : V) (low : ℕ) (s : State V) : Option (State V) := do
  let lowV ← s.lowlinks.lookup v
  return { s with lowlinks := s.lowlinks.insert v (min lowV low) }

/-- The loop that pops a component, down to `v`: the component, and what is left of the stack
and of the set beside it. -/
def popScc (v : V) : List V → List V → Option (List V × List V × List V)
  | [], _ => none
  | w :: rest, onStack =>
      let onStack := onStack.filter (· ≠ w)
      if w = v then some ([w], rest, onStack)
      else (popScc v rest onStack).map fun popped => (w :: popped.1, popped.2)

/-- The last lines of a visit. -/
def finish (v : V) (s : State V) : Option (State V) := do
  let lowV ← s.lowlinks.lookup v
  let idxV ← s.indices.lookup v
  if lowV = idxV then
    let popped ← popScc v s.stack s.onStack
    return { s with
      stack := popped.2.1
      onStack := popped.2.2
      sccs := s.sccs ++ [popped.1] }
  else return s

end State

open State

/-- A round of the loop over the successors of `v`, with the visit of an unvisited one. -/
def scan (visit : V → State V → Option (State V)) (v : V) (s : State V) (w : V) :
    Option (State V) :=
  match s.indices.lookup w with
  | none => do
      let s ← visit w s
      let lowW ← s.lowlinks.lookup w
      s.relax v lowW
  | some idxW => if w ∈ s.onStack then s.relax v idxW else some s

/-- `strongconnect`. -/
def strongconnect (succ : V → List V) : ℕ → V → State V → Option (State V)
  | 0, _, _ => none
  | fuel + 1, v, s => do
      let s ← (succ v).foldlM (scan (strongconnect succ fuel) v) (s.enter v)
      s.finish v

/-- The loop over the vertices. -/
def search (succ : V → List V) (fuel : ℕ) (vertices : List V) (s : State V) : Option (State V) :=
  vertices.foldlM (fun s v =>
    match s.indices.lookup v with
    | none => strongconnect succ fuel v s
    | some _ => some s) s

/-! ## The invariant -/

/-- There is a way from one vertex to the other. -/
def Reach (succ : V → List V) : V → V → Prop := Relation.ReflTransGen fun a b => b ∈ succ a

omit [DecidableEq V] in
theorem Reach.edge {succ : V → List V} {a b : V} (h : b ∈ succ a) : Reach succ a b :=
  Relation.ReflTransGen.single h

namespace State

/-- The vertex has a number. -/
def Visited (s : State V) (v : V) : Prop := (s.indices.lookup v).isSome = true

instance (s : State V) (v : V) : Decidable (s.Visited v) := inferInstanceAs (Decidable (_ = _))

/-- The number of a vertex; 0 for one without. -/
def index (s : State V) (v : V) : ℕ := (s.indices.lookup v).getD 0

/-- The low link of a vertex; 0 for one without. -/
def low (s : State V) (v : V) : ℕ := (s.lowlinks.lookup v).getD 0

/-- The vertex is in a component. -/
def Done (s : State V) (v : V) : Prop := ∃ scc ∈ s.sccs, v ∈ scc

/-- The invariant of the state. -/
structure Wf (succ : V → List V) (s : State V) : Prop where
  nodup : s.stack.Nodup
  onStack : ∀ v, v ∈ s.onStack ↔ v ∈ s.stack
  visited : ∀ v, s.Visited v ↔ v ∈ s.stack ∨ s.Done v
  apart : ∀ v ∈ s.stack, ¬s.Done v
  lowlinks : ∀ v, (s.lowlinks.lookup v).isSome = true ↔ s.Visited v
  bound : ∀ v, s.Visited v → s.index v < s.indexCounter
  sorted : s.stack.Pairwise fun a b => s.index b < s.index a
  closed : ∀ v, s.Done v → ∀ w ∈ succ v, s.Done w
  component : ∀ scc ∈ s.sccs, ∀ v ∈ scc, ∀ w, w ∈ scc ↔ Reach succ v w ∧ Reach succ w v
  nodupSccs : ∀ scc ∈ s.sccs, scc.Nodup

/-- What a visit does not touch. -/
structure Grows (s t : State V) : Prop where
  counter : s.indexCounter ≤ t.indexCounter
  visited : ∀ v, s.Visited v → t.Visited v
  index : ∀ v, s.Visited v → t.index v = s.index v
  low : ∀ v, s.Visited v → t.low v = s.low v

theorem Grows.refl (s : State V) : s.Grows s := ⟨le_rfl, fun _ h => h, fun _ _ => rfl, fun _ _ => rfl⟩

theorem Grows.trans {s t u : State V} (h : s.Grows t) (h' : t.Grows u) : s.Grows u where
  counter := h.counter.trans h'.counter
  visited := fun v hv => h'.visited v (h.visited v hv)
  index := fun v hv => (h'.index v (h.visited v hv)).trans (h.index v hv)
  low := fun v hv => (h'.low v (h.visited v hv)).trans (h.low v hv)

variable {succ : V → List V} {s t : State V} {v w : V}

theorem Wf.visited_of_mem (h : s.Wf succ) (hmem : v ∈ s.stack) : s.Visited v :=
  (h.visited v).mpr (Or.inl hmem)

theorem lookup_index (h : s.Visited v) : s.indices.lookup v = some (s.index v) := by
  obtain ⟨i, hi⟩ := Option.isSome_iff_exists.mp h
  rw [index, hi, Option.getD_some]

theorem Wf.lookup_low (hwf : s.Wf succ) (h : s.Visited v) :
    s.lowlinks.lookup v = some (s.low v) := by
  obtain ⟨i, hi⟩ := Option.isSome_iff_exists.mp ((hwf.lowlinks v).mpr h)
  rw [low, hi, Option.getD_some]

theorem wf_new : (new : State V).Wf succ where
  nodup := List.nodup_nil
  onStack := fun _ => Iff.rfl
  visited := by
    intro v
    refine ⟨fun h => by contradiction, ?_⟩
    rintro (h | ⟨scc, h, -⟩)
    · exact absurd h List.not_mem_nil
    · exact absurd h List.not_mem_nil
  apart := fun _ h => absurd h List.not_mem_nil
  lowlinks := fun _ => Iff.rfl
  bound := fun _ h => by contradiction
  sorted := List.Pairwise.nil
  closed := by
    rintro v ⟨scc, h, -⟩
    exact absurd h List.not_mem_nil
  component := fun _ h => absurd h List.not_mem_nil
  nodupSccs := fun _ h => absurd h List.not_mem_nil

/-! ## Entering a vertex -/

theorem visited_enter : (s.enter v).Visited w ↔ w = v ∨ s.Visited w :=
  isSome_lookup_insert s.indices v w s.indexCounter

theorem index_enter : (s.enter v).index w = if w = v then s.indexCounter else s.index w := by
  unfold index enter
  split
  · next heq => rw [heq, AList.lookup_insert, Option.getD_some]
  · next hne => rw [AList.lookup_insert_ne hne]

theorem low_enter : (s.enter v).low w = if w = v then s.indexCounter else s.low w := by
  unfold low enter
  split
  · next heq => rw [heq, AList.lookup_insert, Option.getD_some]
  · next hne => rw [AList.lookup_insert_ne hne]

theorem grows_enter (hnew : ¬s.Visited v) : s.Grows (s.enter v) where
  counter := Nat.le_succ _
  visited := fun w hw => visited_enter.mpr (Or.inr hw)
  index := by
    intro w hw
    rw [index_enter, if_neg]
    rintro rfl
    exact hnew hw
  low := by
    intro w hw
    rw [low_enter, if_neg]
    rintro rfl
    exact hnew hw

theorem Wf.enter (h : s.Wf succ) (hnew : ¬s.Visited v) : (s.enter v).Wf succ where
  nodup := List.nodup_cons.mpr ⟨fun hmem => hnew (h.visited_of_mem hmem), h.nodup⟩
  onStack := by
    intro w
    show w ∈ s.onStack.insert v ↔ w ∈ v :: s.stack
    rw [List.mem_insert_iff, List.mem_cons, h.onStack]
  visited := by
    intro w
    rw [visited_enter, h.visited]
    show _ ↔ w ∈ v :: s.stack ∨ s.Done w
    rw [List.mem_cons, or_assoc]
  apart := by
    intro w hw hdone
    have hdone : s.Done w := hdone
    rcases List.mem_cons.mp hw with rfl | hw
    · exact hnew ((h.visited w).mpr (Or.inr hdone))
    · exact h.apart w hw hdone
  lowlinks := by
    intro w
    rw [visited_enter, ← h.lowlinks]
    exact isSome_lookup_insert s.lowlinks v w s.indexCounter
  bound := by
    intro w hw
    rw [index_enter]
    show _ < s.indexCounter + 1
    split
    · exact Nat.lt_succ_self _
    · next hne => exact Nat.lt_succ_of_lt (h.bound w ((visited_enter.mp hw).resolve_left hne))
  sorted := by
    -- the vertex is new, so those on the stack keep their indices
    have hne : ∀ w ∈ s.stack, w ≠ v := by
      rintro w hw rfl
      exact hnew (h.visited_of_mem hw)
    refine List.pairwise_cons.mpr ⟨?_, ?_⟩
    · intro w hw
      rw [index_enter, index_enter, if_neg (hne w hw), if_pos rfl]
      exact h.bound w (h.visited_of_mem hw)
    · refine h.sorted.imp_of_mem ?_
      intro a b ha hb hlt
      rwa [index_enter, index_enter, if_neg (hne a ha), if_neg (hne b hb)]
  closed := h.closed
  component := h.component
  nodupSccs := h.nodupSccs

/-! ## A smaller low number -/

theorem relax_eq (hwf : s.Wf succ) (hv : s.Visited v) (lower : ℕ) :
    s.relax v lower =
      some { s with lowlinks := s.lowlinks.insert v (min (s.low v) lower) } := by
  rw [relax, hwf.lookup_low hv]
  rfl

theorem low_insert (s : State V) (v w : V) (lower : ℕ) :
    ({ s with lowlinks := s.lowlinks.insert v lower } : State V).low w =
      if w = v then lower else s.low w := by
  unfold low
  split
  · next heq => rw [heq, AList.lookup_insert, Option.getD_some]
  · next hne => rw [AList.lookup_insert_ne hne]

theorem Wf.insert_low (h : s.Wf succ) (hv : s.Visited v) (lower : ℕ) :
    ({ s with lowlinks := s.lowlinks.insert v lower } : State V).Wf succ where
  nodup := h.nodup
  onStack := h.onStack
  visited := h.visited
  apart := h.apart
  lowlinks := by
    intro w
    refine (isSome_lookup_insert s.lowlinks v w lower).trans ?_
    rw [h.lowlinks]
    exact ⟨fun hw => hw.elim (fun heq => heq ▸ hv) id, Or.inr⟩
  bound := h.bound
  sorted := h.sorted
  closed := h.closed
  component := h.component
  nodupSccs := h.nodupSccs

/-! ## Popping a component -/

theorem popScc_eq {popped : List V} (hnotMem : v ∉ popped) (rest onStack : List V) :
    ∃ onStack', popScc v (popped ++ v :: rest) onStack = some (popped ++ [v], rest, onStack') ∧
      ∀ u, u ∈ onStack' ↔ u ∈ onStack ∧ u ∉ popped ++ [v] := by
  induction popped generalizing onStack with
  | nil =>
      refine ⟨onStack.filter (· ≠ v), ?_, ?_⟩
      · rw [List.nil_append, popScc, if_pos rfl]
        rfl
      · intro u
        simp
  | cons w popped ih =>
      rw [List.mem_cons, not_or] at hnotMem
      obtain ⟨onStack', hpop, hmem⟩ := ih hnotMem.2 (onStack.filter (· ≠ w))
      refine ⟨onStack', ?_, ?_⟩
      · rw [List.cons_append, popScc, if_neg (Ne.symm hnotMem.1), hpop]
        rfl
      · intro u
        rw [hmem u]
        simp
        grind

/-! ## A visit and its loop -/

/-- A visit of `v` in `s` has led to `t`, with `fresh` on top of the stack. -/
structure Visits (succ : V → List V) (s : State V) (v : V) (t : State V) (fresh : List V) :
    Prop where
  wf : t.Wf succ
  grows : s.Grows t
  stack : t.stack = fresh ++ s.stack
  visited : t.Visited v
  after : s.indexCounter ≤ t.index v
  reach : ∀ u ∈ fresh, Reach succ v u ∧ Reach succ u v
  expanded : ∀ u, t.Visited u → s.Visited u ∨ ∀ w ∈ succ u, t.Visited w
  low : fresh = [] ∧ t.low v = t.index v ∨
    ∃ z ∈ s.stack, t.low v = t.index z ∧ Reach succ v z
  edges : ∀ u ∈ fresh, ∀ z ∈ succ u, z ∈ s.stack → t.low v ≤ t.index z

/-- The visit of `v` in `s` has come to `t`, with `fresh` above `v` on the stack, and with the
successors in `seen` behind it. -/
structure Scans (succ : V → List V) (s : State V) (v : V) (t : State V)
    (fresh seen : List V) : Prop where
  wf : t.Wf succ
  grows : s.Grows t
  stack : t.stack = fresh ++ v :: s.stack
  index : t.index v = s.indexCounter
  reach : ∀ u ∈ fresh, Reach succ v u ∧ Reach succ u v
  expanded : ∀ u, t.Visited u → s.Visited u ∨ u = v ∨ ∀ w ∈ succ u, t.Visited w
  past : ∀ w ∈ seen, t.Visited w
  low : t.low v = t.index v ∨ ∃ z ∈ s.stack, t.low v = t.index z ∧ Reach succ v z
  edges : ∀ u ∈ fresh, ∀ z ∈ succ u, z ∈ s.stack → t.low v ≤ t.index z
  edgesSeen : ∀ z ∈ seen, z ∈ s.stack → t.low v ≤ t.index z

theorem Scans.enter (hwf : s.Wf succ) (hnew : ¬s.Visited v) :
    Scans succ s v (s.enter v) [] [] where
  wf := hwf.enter hnew
  grows := grows_enter hnew
  stack := rfl
  index := by rw [index_enter, if_pos rfl]
  reach := fun u hu => absurd hu List.not_mem_nil
  expanded := by
    intro u hu
    rcases visited_enter.mp hu with heq | hold
    · exact Or.inr (Or.inl heq)
    · exact Or.inl hold
  past := fun w hw => absurd hw List.not_mem_nil
  low := Or.inl (by rw [low_enter, index_enter, if_pos rfl, if_pos rfl])
  edges := fun u hu => absurd hu List.not_mem_nil
  edgesSeen := fun z hz => absurd hz List.not_mem_nil

section

variable {fresh seen : List V}

theorem Scans.visited (h : Scans succ s v t fresh seen) : t.Visited v :=
  h.wf.visited_of_mem (by rw [h.stack]; simp)

/-- What is below `v` on the stack has smaller numbers, and what is above it larger ones. -/
theorem Scans.mem_stack (h : Scans succ s v t fresh seen) {z : V} (hz : z ∈ t.stack) :
    z ∈ fresh ∧ t.index v < t.index z ∨ z = v ∨ z ∈ s.stack ∧ t.index z < t.index v := by
  have hsorted := h.wf.sorted
  rw [h.stack] at hz hsorted
  obtain ⟨-, hbelow, habove⟩ := List.pairwise_append.mp hsorted
  rcases List.mem_append.mp hz with hz | hz
  · exact Or.inl ⟨hz, habove z hz v (List.mem_cons_self ..)⟩
  · rcases List.mem_cons.mp hz with rfl | hz
    · exact Or.inr (Or.inl rfl)
    · exact Or.inr (Or.inr ⟨hz, (List.pairwise_cons.mp hbelow).1 z hz⟩)

theorem Scans.mem_of_below (h : Scans succ s v t fresh seen) {z : V} (hz : z ∈ s.stack) :
    z ∈ t.stack := by
  rw [h.stack]
  exact List.mem_append_right _ (List.mem_cons_of_mem _ hz)

theorem Scans.index_below (hwf : s.Wf succ) (h : Scans succ s v t fresh seen) {z : V}
    (hz : z ∈ s.stack) : t.index z < t.index v := by
  have hvisited := hwf.visited_of_mem hz
  rw [h.index, h.grows.index z hvisited]
  exact hwf.bound z hvisited

theorem Scans.low_le (hwf : s.Wf succ) (h : Scans succ s v t fresh seen) :
    t.low v ≤ t.index v := by
  rcases h.low with heq | ⟨z, hz, heq, -⟩
  · exact heq.le
  · rw [heq]
    exact (h.index_below hwf hz).le

/-- The whole stack leads to `v`. -/
theorem Scans.reach_stack (h : Scans succ s v t fresh seen)
    (hreach : ∀ z ∈ s.stack, Reach succ z v) {z : V} (hz : z ∈ t.stack) : Reach succ z v := by
  rcases h.mem_stack hz with ⟨hfresh, -⟩ | rfl | ⟨hbelow, -⟩
  · exact (h.reach z hfresh).2
  · exact Relation.ReflTransGen.refl
  · exact hreach z hbelow

/-- A low number that is taken over belongs to a vertex of the old stack. -/
theorem Scans.low_min (h : Scans succ s v t fresh seen) (lower : ℕ)
    (hlower : lower < t.low v → ∃ z ∈ s.stack, lower = t.index z ∧ Reach succ v z) :
    min (t.low v) lower = t.index v ∨
      ∃ z ∈ s.stack, min (t.low v) lower = t.index z ∧ Reach succ v z := by
  rcases Nat.lt_or_ge lower (t.low v) with hlt | hge
  · rw [min_eq_right hlt.le]
    exact Or.inr (hlower hlt)
  · rw [min_eq_left hge]
    exact h.low

/-- A number on the stack that is smaller than the low number is that of an old vertex. -/
theorem Scans.below_of_lt (hwf : s.Wf succ) (h : Scans succ s v t fresh seen) {z : V}
    (hz : z ∈ t.stack) (hlt : t.index z < t.low v) : z ∈ s.stack := by
  have hle := h.low_le hwf
  rcases h.mem_stack hz with ⟨-, hgt⟩ | rfl | ⟨hbelow, -⟩
  · omega
  · omega
  · exact hbelow

/-- A successor that is done adds nothing. -/
theorem Scans.skip (h : Scans succ s v t fresh seen) {w : V} (hvisited : t.Visited w)
    (hoff : w ∉ t.stack) : Scans succ s v t fresh (seen ++ [w]) where
  wf := h.wf
  grows := h.grows
  stack := h.stack
  index := h.index
  reach := h.reach
  expanded := h.expanded
  past := by
    intro w' hw'
    rcases List.mem_append.mp hw' with hw' | hw'
    · exact h.past w' hw'
    · rw [List.mem_singleton.mp hw']
      exact hvisited
  low := h.low
  edges := h.edges
  edgesSeen := by
    intro z hz hbelow
    rcases List.mem_append.mp hz with hz | hz
    · exact h.edgesSeen z hz hbelow
    · rw [List.mem_singleton.mp hz] at hbelow
      exact absurd (h.mem_of_below hbelow) hoff

/-- What a smaller low number of `v` does not touch. -/
theorem Grows.insert_low (h : s.Grows t) (hnew : ¬s.Visited v) (lower : ℕ) :
    s.Grows { t with lowlinks := t.lowlinks.insert v lower } where
  counter := h.counter
  visited := h.visited
  index := h.index
  low := by
    intro u hu
    rw [low_insert, if_neg]
    · exact h.low u hu
    · rintro rfl
      exact hnew hu

/-- A successor on the stack. -/
theorem Scans.back (hwf : s.Wf succ) (hnew : ¬s.Visited v) (h : Scans succ s v t fresh seen)
    {w : V} (hw : w ∈ succ v) (hon : w ∈ t.stack) :
    Scans succ s v
      { t with lowlinks := t.lowlinks.insert v (min (t.low v) (t.index w)) } fresh
      (seen ++ [w]) := by
  have hlow := low_insert t v v (min (t.low v) (t.index w))
  rw [if_pos rfl] at hlow
  refine ⟨h.wf.insert_low h.visited _, h.grows.insert_low hnew _, h.stack, h.index, h.reach,
    h.expanded, ?_, ?_, ?_, ?_⟩
  · intro w' hw'
    rcases List.mem_append.mp hw' with hw' | hw'
    · exact h.past w' hw'
    · rw [List.mem_singleton.mp hw']
      exact h.wf.visited_of_mem hon
  · rw [hlow]
    exact h.low_min _ fun hlt => ⟨w, h.below_of_lt hwf hon hlt, rfl, Reach.edge hw⟩
  · intro u hu z hz hbelow
    rw [hlow]
    exact (min_le_left _ _).trans (h.edges u hu z hz hbelow)
  · intro z hz hbelow
    rw [hlow]
    rcases List.mem_append.mp hz with hz | hz
    · exact (min_le_left _ _).trans (h.edgesSeen z hz hbelow)
    · rw [List.mem_singleton.mp hz]
      exact min_le_right _ _

/-- A successor that has been visited. -/
theorem Scans.visit (hwf : s.Wf succ) (hnew : ¬s.Visited v)
    (hreach : ∀ z ∈ s.stack, Reach succ z v) (h : Scans succ s v t fresh seen) {w : V}
    (hw : w ∈ succ v) (hunvisited : ¬t.Visited w) {t' : State V} {fresh' : List V}
    (h' : Visits succ t w t' fresh') :
    Scans succ s v
      { t' with lowlinks := t'.lowlinks.insert v (min (t'.low v) (t'.low w)) } (fresh' ++ fresh)
      (seen ++ [w]) := by
  have hvisited := h.visited
  have hindex : ∀ z ∈ t.stack, t'.index z = t.index z := fun z hz =>
    h'.grows.index z (h.wf.visited_of_mem hz)
  have hindexV : t'.index v = t.index v := h'.grows.index v hvisited
  have hlowV : t'.low v = t.low v := h'.grows.low v hvisited
  have hlow := low_insert t' v v (min (t'.low v) (t'.low w))
  rw [if_pos rfl] at hlow
  -- what stays on the stack leads back to `v`
  have hback : fresh' ≠ [] → Reach succ w v := by
    intro hne
    obtain ⟨z, hz, -, hwz⟩ := h'.low.resolve_left fun hnil => hne hnil.1
    exact hwz.trans (h.reach_stack hreach hz)
  refine ⟨h'.wf.insert_low (h'.grows.visited v hvisited) _,
    (h.grows.trans h'.grows).insert_low hnew _, ?_, hindexV.trans h.index, ?_, ?_, ?_, ?_, ?_, ?_⟩
  · show t'.stack = _
    rw [h'.stack, h.stack, List.append_assoc]
  · intro u hu
    rcases List.mem_append.mp hu with hu | hu
    · obtain ⟨hfrom, hto⟩ := h'.reach u hu
      exact ⟨(Reach.edge hw).trans hfrom, hto.trans (hback (List.ne_nil_of_mem hu))⟩
    · exact h.reach u hu
  · intro u hu
    rcases h'.expanded u hu with hold | hall
    · rcases h.expanded u hold with hold | heq | hall
      · exact Or.inl hold
      · exact Or.inr (Or.inl heq)
      · exact Or.inr (Or.inr fun w' hw' => h'.grows.visited w' (hall w' hw'))
    · exact Or.inr (Or.inr hall)
  · intro w' hw'
    rcases List.mem_append.mp hw' with hw' | hw'
    · exact h'.grows.visited w' (h.past w' hw')
    · rw [List.mem_singleton.mp hw']
      exact h'.visited
  · show _ = t'.index v ∨ ∃ z ∈ s.stack, _ = t'.index z ∧ _
    rw [hlow, hlowV]
    have hmin := h.low_min (t'.low w) fun hlt => by
      -- the low number of a whole new component is larger than that of `v`
      rcases h'.low with ⟨-, heq⟩ | ⟨z, hz, heq, hwz⟩
      · have hafter := h'.after
        have hbound := h.wf.bound v hvisited
        have hle := h.low_le hwf
        omega
      · rw [heq, hindex z hz] at hlt ⊢
        exact ⟨z, h.below_of_lt hwf hz hlt, rfl, (Reach.edge hw).trans hwz⟩
    rcases hmin with heq | ⟨z, hz, heq, hvz⟩
    · exact Or.inl (heq.trans hindexV.symm)
    · exact Or.inr ⟨z, hz, heq.trans (hindex z (h.mem_of_below hz)).symm, hvz⟩
  · intro u hu z hz hbelow
    show _ ≤ t'.index z
    rw [hlow, hlowV]
    rcases List.mem_append.mp hu with hu | hu
    · exact (min_le_right _ _).trans (h'.edges u hu z hz (h.mem_of_below hbelow))
    · rw [hindex z (h.mem_of_below hbelow)]
      exact (min_le_left _ _).trans (h.edges u hu z hz hbelow)
  · intro z hz hbelow
    show _ ≤ t'.index z
    rw [hlow, hlowV]
    rcases List.mem_append.mp hz with hz | hz
    · rw [hindex z (h.mem_of_below hbelow)]
      exact (min_le_left _ _).trans (h.edgesSeen z hz hbelow)
    · -- `w` is not on the old stack, as it had no number
      rw [List.mem_singleton.mp hz] at hbelow
      exact absurd (h.wf.visited_of_mem (h.mem_of_below hbelow)) hunvisited

/-! ## The end of a visit -/

/-- The vertices above `v`, and `v`, have not been visited before. -/
theorem Scans.not_visited (hwf : s.Wf succ) (hnew : ¬s.Visited v)
    (h : Scans succ s v t fresh seen) {u : V} (hu : u ∈ fresh ++ [v]) : ¬s.Visited u := by
  rcases List.mem_append.mp hu with hu | hu
  · intro hold
    have hsorted := h.wf.sorted
    rw [h.stack] at hsorted
    obtain ⟨-, -, habove⟩ := List.pairwise_append.mp hsorted
    have hgt := habove u hu v (List.mem_cons_self ..)
    have hbound := hwf.bound u hold
    rw [h.index, h.grows.index u hold] at hgt
    omega
  · rw [List.mem_singleton.mp hu]
    exact hnew

theorem Scans.mem_stack_iff (h : Scans succ s v t fresh seen) (u : V) :
    u ∈ t.stack ↔ u ∈ fresh ++ [v] ∨ u ∈ s.stack := by
  rw [h.stack, List.append_cons, List.mem_append]

theorem Scans.disjoint (h : Scans succ s v t fresh seen) {u : V} (hu : u ∈ fresh ++ [v]) :
    u ∉ s.stack := by
  have hnodup := h.wf.nodup
  rw [h.stack, List.append_cons] at hnodup
  exact fun hbelow => (List.nodup_append.mp hnodup).2.2 u hu u hbelow rfl

/-- `v` and what is above it reach each other. -/
theorem Scans.mutual (h : Scans succ s v t fresh seen) {a b : V} (ha : a ∈ fresh ++ [v])
    (hb : b ∈ fresh ++ [v]) : Reach succ a b := by
  have hfrom : ∀ u ∈ fresh ++ [v], Reach succ v u ∧ Reach succ u v := by
    intro u hu
    rcases List.mem_append.mp hu with hu | hu
    · exact h.reach u hu
    · rw [List.mem_singleton.mp hu]
      exact ⟨Relation.ReflTransGen.refl, Relation.ReflTransGen.refl⟩
  exact (hfrom a ha).2.trans (hfrom b hb).1

/-- With no smaller low number, no edge leads from `v` and above to the old stack. -/
theorem Scans.leaves (hwf : s.Wf succ) (hnew : ¬s.Visited v)
    (h : Scans succ s v t fresh (succ v)) (hlow : t.low v = t.index v) {u w : V}
    (hu : u ∈ fresh ++ [v]) (hw : w ∈ succ u) : w ∈ fresh ++ [v] ∨ t.Done w := by
  have hvisited : t.Visited w := by
    have hon : u ∈ t.stack := (h.mem_stack_iff u).mpr (Or.inl hu)
    rcases h.expanded u (h.wf.visited_of_mem hon) with hold | rfl | hall
    · exact absurd hold (h.not_visited hwf hnew hu)
    · exact h.past w hw
    · exact hall w hw
  have hedge : w ∈ s.stack → t.low v ≤ t.index w := by
    intro hbelow
    rcases List.mem_append.mp hu with hu | hu
    · exact h.edges u hu w hw hbelow
    · rw [List.mem_singleton.mp hu] at hw
      exact h.edgesSeen w hw hbelow
  rcases (h.wf.visited w).mp hvisited with hon | hdone
  · rcases (h.mem_stack_iff w).mp hon with hfresh | hbelow
    · exact Or.inl hfresh
    · have hle := hedge hbelow
      have hlt := h.index_below hwf hbelow
      omega
  · exact Or.inr hdone

/-- The state after a component has been popped. -/
theorem Scans.wf_pop (hwf : s.Wf succ) (hnew : ¬s.Visited v)
    (h : Scans succ s v t fresh (succ v)) (hlow : t.low v = t.index v) {onStack : List V}
    (honStack : ∀ u, u ∈ onStack ↔ u ∈ t.onStack ∧ u ∉ fresh ++ [v]) :
    ({ t with
      stack := s.stack
      onStack
      sccs := t.sccs ++ [fresh ++ [v]] } : State V).Wf succ := by
  have hdone : ∀ u, (∃ scc ∈ t.sccs ++ [fresh ++ [v]], u ∈ scc) ↔
      t.Done u ∨ u ∈ fresh ++ [v] := by
    intro u
    constructor
    · rintro ⟨scc, hscc, hu⟩
      rcases List.mem_append.mp hscc with hscc | hscc
      · exact Or.inl ⟨scc, hscc, hu⟩
      · exact Or.inr (List.mem_singleton.mp hscc ▸ hu)
    · rintro (⟨scc, hscc, hu⟩ | hu)
      · exact ⟨scc, List.mem_append_left _ hscc, hu⟩
      · exact ⟨_, List.mem_append_right _ (List.mem_singleton_self _), hu⟩
  have happart : ∀ u ∈ fresh ++ [v], ¬t.Done u := fun u hu =>
    h.wf.apart u ((h.mem_stack_iff u).mpr (Or.inl hu))
  -- nothing leads out of what is done
  have hclosed : ∀ a b, Reach succ a b → t.Done a → t.Done b := by
    intro a b hab hdone
    induction hab with
    | refl => exact hdone
    | tail _ hedge ih => exact h.wf.closed _ ih _ hedge
  have hsub : s.stack.Sublist t.stack := by
    rw [h.stack, List.append_cons]
    exact List.sublist_append_right _ _
  refine ⟨h.wf.nodup.sublist hsub, ?_, ?_, ?_, h.wf.lowlinks, h.wf.bound, h.wf.sorted.sublist hsub,
    ?_, ?_, ?_⟩
  · intro u
    show u ∈ onStack ↔ u ∈ s.stack
    rw [honStack, h.wf.onStack, h.mem_stack_iff]
    constructor
    · rintro ⟨hu | hu, hne⟩
      · exact absurd hu hne
      · exact hu
    · intro hu
      exact ⟨Or.inr hu, fun hpopped => h.disjoint hpopped hu⟩
  · intro u
    refine (h.wf.visited u).trans ?_
    rw [h.mem_stack_iff]
    show _ ↔ u ∈ s.stack ∨ ∃ scc ∈ t.sccs ++ [fresh ++ [v]], u ∈ scc
    rw [hdone]
    grind
  · rintro u hu hd
    rcases (hdone u).mp hd with hd | hpopped
    · exact h.wf.apart u (h.mem_of_below hu) hd
    · exact h.disjoint hpopped hu
  · rintro u hu w hw
    refine (hdone w).mpr ?_
    rcases (hdone u).mp hu with hu | hu
    · exact Or.inl (h.wf.closed u hu w hw)
    · exact (h.leaves hwf hnew hlow hu hw).symm
  · intro scc hscc a ha b
    rcases List.mem_append.mp hscc with hscc | hscc
    · exact h.wf.component scc hscc a ha b
    · obtain rfl := List.mem_singleton.mp hscc
      refine ⟨fun hb => ⟨h.mutual ha hb, h.mutual hb ha⟩, ?_⟩
      rintro ⟨hab, hba⟩
      -- the way from `a` to `b` stays in what is done, and nothing that was done before leads back
      have hstays : b ∈ fresh ++ [v] ∨ t.Done b := by
        clear hba
        induction hab with
        | refl => exact Or.inl ha
        | tail _ hedge ih =>
            rcases ih with hin | hd
            · exact h.leaves hwf hnew hlow hin hedge
            · exact Or.inr (h.wf.closed _ hd _ hedge)
      exact hstays.resolve_right fun hd => happart a ha (hclosed b a hba hd)
  · intro scc hscc
    rcases List.mem_append.mp hscc with hscc | hscc
    · exact h.wf.nodupSccs scc hscc
    · have hnodup := h.wf.nodup
      rw [h.stack, List.append_cons] at hnodup
      rw [List.mem_singleton.mp hscc]
      exact (List.nodup_append.mp hnodup).1

theorem Scans.exists_finish (hwf : s.Wf succ) (hnew : ¬s.Visited v)
    (h : Scans succ s v t fresh (succ v)) :
    ∃ t' fresh', t.finish v = some t' ∧ Visits succ s v t' fresh' := by
  have hvisited := h.visited
  -- with the scan over, the edges of `v` are all seen
  have hexpanded : ∀ u, t.Visited u → s.Visited u ∨ ∀ w ∈ succ u, t.Visited w := by
    intro u hu
    rcases h.expanded u hu with hold | rfl | hall
    · exact Or.inl hold
    · exact Or.inr h.past
    · exact Or.inr hall
  rw [finish, h.wf.lookup_low hvisited, lookup_index hvisited]
  by_cases hlow : t.low v = t.index v
  · -- `v` is the root of a component, which is popped
    have hnotMem : v ∉ fresh := by
      have hnodup := h.wf.nodup
      rw [h.stack] at hnodup
      exact fun hmem => (List.nodup_append.mp hnodup).2.2 v hmem v (List.mem_cons_self ..) rfl
    obtain ⟨onStack, hpop, honStack⟩ := popScc_eq hnotMem s.stack t.onStack
    rw [← h.stack] at hpop
    refine ⟨_, [], ?_, h.wf_pop hwf hnew hlow honStack,
      ⟨h.grows.counter, h.grows.visited, h.grows.index, h.grows.low⟩, rfl, hvisited, h.index.ge, ?_,
      hexpanded, Or.inl ⟨rfl, hlow⟩, ?_⟩
    · simp only [Option.bind_eq_bind, Option.bind_some, if_pos hlow, hpop]
      rfl
    · exact fun u hu => absurd hu List.not_mem_nil
    · exact fun u hu => absurd hu List.not_mem_nil
  · -- `v` stays on the stack, with a way to an older vertex
    refine ⟨t, fresh ++ [v], ?_, h.wf, h.grows, ?_, hvisited, h.index.ge, ?_, hexpanded,
      Or.inr (h.low.resolve_left hlow), ?_⟩
    · simp only [Option.bind_eq_bind, Option.bind_some, if_neg hlow]
      rfl
    · rw [h.stack, List.append_cons]
    · intro u hu
      have hv : v ∈ fresh ++ [v] := List.mem_append_right _ (List.mem_singleton_self v)
      exact ⟨h.mutual hv hu, h.mutual hu hv⟩
    · intro u hu z hz hbelow
      rcases List.mem_append.mp hu with hu | hu
      · exact h.edges u hu z hz hbelow
      · rw [List.mem_singleton.mp hu] at hz
        exact h.edgesSeen z hz hbelow

end

/-! ## Enough fuel -/

/-- The vertices without a number. -/
def unvisited (U : Finset V) (s : State V) : Finset V := U.filter fun v => ¬s.Visited v

variable {U : Finset V}

theorem unvisited_card_le (h : ∀ u, s.Visited u → t.Visited u) :
    (t.unvisited U).card ≤ (s.unvisited U).card := by
  apply Finset.card_le_card
  intro u hu
  rw [unvisited, Finset.mem_filter] at hu ⊢
  exact ⟨hu.1, fun hs => hu.2 (h u hs)⟩

theorem unvisited_enter_card_lt (hv : v ∈ U) (hnew : ¬s.Visited v) :
    ((s.enter v).unvisited U).card < (s.unvisited U).card := by
  apply Finset.card_lt_card
  rw [Finset.ssubset_iff_of_subset]
  · refine ⟨v, Finset.mem_filter.mpr ⟨hv, hnew⟩, fun hmem => ?_⟩
    exact (Finset.mem_filter.mp hmem).2 (visited_enter.mpr (Or.inl rfl))
  · intro u hu
    rw [unvisited, Finset.mem_filter] at hu ⊢
    exact ⟨hu.1, fun hs => hu.2 (visited_enter.mpr (Or.inr hs))⟩

/-- A visit comes to an end wherever the search may begin one. -/
def VisitsAll (succ : V → List V) (U : Finset V) (fuel : ℕ)
    (visit : V → State V → Option (State V)) : Prop :=
  ∀ v s, s.Wf succ → ¬s.Visited v → v ∈ U → (∀ z ∈ s.stack, Reach succ z v) →
    (s.unvisited U).card ≤ fuel →
      ∃ t fresh, visit v s = some t ∧ Visits succ s v t fresh

/-- One round of the loop. -/
theorem Scans.exists_scan {visit : V → State V → Option (State V)} {fuel : ℕ}
    (hvisit : VisitsAll succ U fuel visit) (hwf : s.Wf succ) (hnew : ¬s.Visited v)
    (hreach : ∀ z ∈ s.stack, Reach succ z v) {fresh seen : List V}
    (h : Scans succ s v t fresh seen) {w : V} (hw : w ∈ succ v) (hU : w ∈ U)
    (hfuel : (t.unvisited U).card ≤ fuel) :
    ∃ t' fresh', scan visit v t w = some t' ∧ Scans succ s v t' fresh' (seen ++ [w]) ∧
      (t'.unvisited U).card ≤ fuel := by
  rw [scan]
  cases hindex : t.indices.lookup w with
  | none =>
      -- all that is on the stack leads to `v`, and so to `w`
      have hunvisited : ¬t.Visited w := by
        rw [Visited, hindex]
        exact Bool.false_ne_true
      obtain ⟨t', fresh', hrun, h'⟩ := hvisit w t h.wf hunvisited hU
        (fun z hz => (h.reach_stack hreach hz).trans (Reach.edge hw)) hfuel
      refine ⟨_, _, ?_, h.visit hwf hnew hreach hw hunvisited h', ?_⟩
      · simp only [hrun, Option.bind_eq_bind, Option.bind_some, h'.wf.lookup_low h'.visited]
        exact relax_eq h'.wf (h'.grows.visited v h.visited) _
      · exact (unvisited_card_le fun u hu => h'.grows.visited u hu).trans hfuel
  | some i =>
      have hvisited : t.Visited w := by
        rw [Visited, hindex]
        rfl
      have hi : i = t.index w := by rw [State.index, hindex, Option.getD_some]
      by_cases hon : w ∈ t.stack
      · refine ⟨_, _, ?_, h.back hwf hnew hw hon, hfuel⟩
        rw [← hi]
        exact (if_pos ((h.wf.onStack w).mpr hon)).trans (relax_eq h.wf h.visited _)
      · -- `w` is in a component that has been popped
        exact ⟨t, fresh, if_neg fun hmem => hon ((h.wf.onStack w).mp hmem),
          h.skip hvisited hon, hfuel⟩

theorem Scans.exists_loop {visit : V → State V → Option (State V)} {fuel : ℕ}
    (hvisit : VisitsAll succ U fuel visit) (hwf : s.Wf succ) (hnew : ¬s.Visited v)
    (hreach : ∀ z ∈ s.stack, Reach succ z v) {fresh seen : List V}
    (h : Scans succ s v t fresh seen) {rest : List V} (hrest : ∀ w ∈ rest, w ∈ succ v)
    (hU : ∀ w ∈ rest, w ∈ U) (hfuel : (t.unvisited U).card ≤ fuel) :
    ∃ t' fresh', rest.foldlM (scan visit v) t = some t' ∧
      Scans succ s v t' fresh' (seen ++ rest) := by
  induction rest generalizing t fresh seen with
  | nil =>
      rw [List.append_nil]
      exact ⟨t, fresh, rfl, h⟩
  | cons w rest ih =>
      obtain ⟨hw, hrest⟩ := List.forall_mem_cons.mp hrest
      obtain ⟨hwU, hU⟩ := List.forall_mem_cons.mp hU
      obtain ⟨t', fresh', hscan, h', hfuel'⟩ := h.exists_scan hvisit hwf hnew hreach hw hwU hfuel
      obtain ⟨t'', fresh'', hloop, h''⟩ := ih h' hrest hU hfuel'
      refine ⟨t'', fresh'', ?_, ?_⟩
      · rw [List.foldlM_cons, hscan]
        exact hloop
      · rwa [List.append_assoc] at h''

end State

/-! ## The whole search -/

variable {succ : V → List V} {U : Finset V}

/-- With as much fuel as there are unvisited vertices a visit comes to its end. -/
theorem exists_strongconnect (hclosed : ∀ v ∈ U, ∀ w ∈ succ v, w ∈ U) (fuel : ℕ) :
    VisitsAll succ U fuel (strongconnect succ fuel) := by
  induction fuel with
  | zero =>
      intro v s hwf hnew hv hreach hfuel
      -- the vertex itself is unvisited
      have hlt := unvisited_enter_card_lt hv hnew
      omega
  | succ fuel ih =>
      intro v s hwf hnew hv hreach hfuel
      have hlt := unvisited_enter_card_lt hv hnew
      -- entering `v` leaves one unvisited vertex less for the successors
      obtain ⟨t, fresh, hloop, h⟩ := (Scans.enter hwf hnew).exists_loop ih hwf hnew hreach
        (fun w hw => hw) (hclosed v hv) (by omega)
      obtain ⟨t', fresh', hfinish, h'⟩ := Scans.exists_finish hwf hnew h
      refine ⟨t', fresh', ?_, h'⟩
      rw [strongconnect, hloop]
      exact hfinish

/-- The search visits all vertices that it is given, and leaves nothing on the stack. -/
theorem exists_search (hclosed : ∀ v ∈ U, ∀ w ∈ succ v, w ∈ U) {fuel : ℕ} (hfuel : U.card ≤ fuel)
    {vertices : List V} (hvertices : ∀ v ∈ vertices, v ∈ U) {s : State V} (hwf : s.Wf succ)
    (hstack : s.stack = []) :
    ∃ t, search succ fuel vertices s = some t ∧ t.Wf succ ∧ t.stack = [] ∧
      (∀ v, s.Visited v → t.Visited v) ∧ ∀ v ∈ vertices, t.Visited v := by
  induction vertices generalizing s with
  | nil => exact ⟨s, rfl, hwf, hstack, fun _ h => h, fun v hv => absurd hv List.not_mem_nil⟩
  | cons v rest ih =>
      obtain ⟨hv, hrest⟩ := List.forall_mem_cons.mp hvertices
      obtain ⟨t, hround, hwf', hstack', hgrows, hvisited⟩ : ∃ t,
          (match s.indices.lookup v with
            | none => strongconnect succ fuel v s
            | some _ => some s) = some t ∧ t.Wf succ ∧ t.stack = [] ∧
              (∀ u, s.Visited u → t.Visited u) ∧ t.Visited v := by
        cases hindex : s.indices.lookup v with
        | none =>
            have hnew : ¬s.Visited v := by
              rw [Visited, hindex]
              exact Bool.false_ne_true
            have hcard : (s.unvisited U).card ≤ fuel :=
              (Finset.card_le_card (Finset.filter_subset _ _)).trans hfuel
            obtain ⟨t, fresh, hrun, h⟩ := exists_strongconnect hclosed fuel v s hwf hnew hv
              (fun z hz => absurd (hstack ▸ hz) List.not_mem_nil) hcard
            refine ⟨t, hrun, h.wf, ?_, h.grows.visited, h.visited⟩
            -- with nothing below it, the first vertex is a root
            rcases h.low with ⟨hnil, -⟩ | ⟨z, hz, -⟩
            · rw [h.stack, hnil, hstack]
              rfl
            · rw [hstack] at hz
              exact absurd hz List.not_mem_nil
        | some i =>
            refine ⟨s, rfl, hwf, hstack, fun _ h => h, ?_⟩
            rw [Visited, hindex]
            rfl
      obtain ⟨t', hsearch, hwf'', hstack'', hgrows', hvisited'⟩ := ih hrest hwf' hstack'
      refine ⟨t', ?_, hwf'', hstack'', fun u hu => hgrows' u (hgrows u hu), ?_⟩
      · rw [search, List.foldlM_cons, hround]
        exact hsearch
      · exact List.forall_mem_cons.mpr ⟨hgrows' v hvisited, hvisited'⟩

/-- With an empty stack, the visited vertices are those in the components. -/
theorem State.Wf.exists_component {s : State V} (hwf : s.Wf succ) (hstack : s.stack = []) {v : V}
    (hv : s.Visited v) : ∃ scc ∈ s.sccs, v ∈ scc := by
  rcases (hwf.visited v).mp hv with hon | hdone
  · rw [hstack] at hon
    exact absurd hon List.not_mem_nil
  · exact hdone

/-- Where every vertex of a finite set has an edge into the set, there is a cycle. -/
theorem exists_transGen_self {α : Type*} {r : α → α → Prop} {s : Finset α} (hne : s.Nonempty)
    (hnext : ∀ a ∈ s, ∃ b ∈ s, r a b) : ∃ a, Relation.TransGen r a a := by
  classical
  induction s using Finset.strongInduction with
  | H s ih =>
      obtain ⟨a, ha⟩ := hne
      by_cases hcycle : Relation.TransGen r a a
      · exact ⟨a, hcycle⟩
      -- what can be reached from `a` is smaller, as `a` is not in it
      · have hsmaller : s.filter (Relation.TransGen r a) ⊂ s :=
          Finset.filter_ssubset.mpr ⟨a, ha, hcycle⟩
        obtain ⟨b, hb, hab⟩ := hnext a ha
        apply ih _ hsmaller ⟨b, Finset.mem_filter.mpr ⟨hb, Relation.TransGen.single hab⟩⟩
        intro c hc
        obtain ⟨hc, hac⟩ := Finset.mem_filter.mp hc
        obtain ⟨d, hd, hcd⟩ := hnext c hc
        exact ⟨d, Finset.mem_filter.mpr ⟨hd, hac.tail hcd⟩, hcd⟩

end Crabstash.StrongComponents

import Crabstash.Foundations.Run
import Crabstash.Lock.RangeLock

/-!
# Exact range queries

What the searches of an `IntervalTree` find, for every tree that inserts and removals make.

Nothing is found twice and nothing is found that does not overlap.  What is missed are ranges
without an end: such a range is kept as if it ended at 256 bytes `0xFF`, and a subtree whose
ends all lie before the query is left out.  A range like this is still found when another range
below its node ends late enough; so the condition is on the greatest end at its own node
(`findOverlapping_perm_iff`).
-/

namespace Crabstash

/-- The calls that change the tree. -/
inductive RangeCall where
  | insert (entry : RangeLockEntry)
  | removeByTxn (txnId : ℕ)
  deriving DecidableEq, Repr

/-- The ranges that are stored, in the order in which they were put in. -/
def RangeCall.stored (entries : List RangeLockEntry) : RangeCall → List RangeLockEntry
  | insert entry => entries ++ [entry]
  | removeByTxn txnId => entries.filter fun e => e.txnId != txnId

namespace IntervalTree

/-- The tree after a call. -/
def call (tree : IntervalTree) : RangeCall → IntervalTree
  | .insert entry => tree.insert entry
  | .removeByTxn txnId => tree.removeByTxn txnId

theorem entries_call (tree : IntervalTree) (c : RangeCall) :
    (tree.call c).entries = RangeCall.stored tree.entries c := by
  cases c with
  | insert entry => exact entries_insert tree entry
  | removeByTxn txnId => exact entries_removeByTxn tree txnId

theorem entries_run (calls : List RangeCall) :
    (Run.run call new calls).entries = Run.run RangeCall.stored [] calls :=
  Run.Along.simulation (P := fun _ _ => True) (R := fun tree entries => tree.entries = entries)
    (fun tree _ c h _ => h ▸ entries_call tree c) rfl (Run.along_of_forall (fun _ _ => trivial) new)

/-- Every tree that calls make is made by inserts only. -/
theorem run_induct {P : IntervalTree → Prop} (hnew : P new)
    (hinsert : ∀ tree entry, P tree → P (tree.insert entry)) (calls : List RangeCall) :
    P (Run.run call new calls) := by
  refine Run.invariant P (fun tree c h => ?_) hnew calls
  cases c with
  | insert entry => exact hinsert tree entry h
  | removeByTxn txnId => exact removeByTxn_induct hnew hinsert tree txnId

/-! ## All nodes are in the tree -/

/-- The tree has every node of the vector, and its greatest ends are ends of entries. -/
def Whole (tree : IntervalTree) : Prop :=
  ∃ t, Built tree t ∧ t.indices.length = tree.nodes.length ∧ IntervalNodes.Attained ending t

theorem whole_new : Whole new := ⟨.leaf, built_new, rfl, IntervalNodes.Attained.leaf⟩

theorem Whole.insert {tree : IntervalTree} (h : tree.Whole) (entry : RangeLockEntry) :
    (tree.insert entry).Whole := by
  obtain ⟨t, hbuilt, hlength, hattained⟩ := h
  refine ⟨_, hbuilt.insert entry, ?_, hattained.insert less tree.nodes.length entry⟩
  have hnodes := congrArg List.length (entries_insert tree entry)
  simp only [entries, List.length_map, List.length_append, List.length_singleton] at hnodes
  rw [IntervalNodes.length_indices_insert, hlength, hnodes]

theorem whole_run (calls : List RangeCall) : (Run.run call new calls).Whole :=
  run_induct whole_new (fun _ entry h => h.insert entry) calls

/-- An entry with the greatest end at its node. -/
def mark (node : IntervalNode) : RangeLockEntry × Bytes := (node.entry, node.maxEnd)

theorem Represents.marked_perm {nodes : List IntervalNode} {idx : Option ℕ}
    {t : IntervalNodes RangeLockEntry Bytes} (h : Represents nodes idx t) :
    t.marked.Perm (t.indices.filterMap fun i => nodes[i]?.map mark) := by
  induction h with
  | none => exact List.Perm.refl _
  | @some i node left right hnode _ _ ihl ihr =>
      rw [IntervalNodes.marked, IntervalNodes.indices, List.filterMap_cons, hnode,
        List.filterMap_append]
      exact List.perm_middle.trans ((ihl.append ihr).cons _)

theorem filterMap_range_getElem? {α β : Type} (f : α → β) (l : List α) :
    ((List.range l.length).filterMap fun i => l[i]?.map f) = l.map f := by
  induction l with
  | nil => rfl
  | cons a l ih =>
      rw [List.length_cons, List.range_succ_eq_map, List.filterMap_cons, List.filterMap_map]
      exact congrArg (f a :: ·) ih

section

variable {tree : IntervalTree} {t : IntervalNodes RangeLockEntry Bytes}

/-- The nodes of the tree are those of the vector. -/
theorem Built.indices_perm (h : Built tree t) (hlength : t.indices.length = tree.nodes.length) :
    t.indices.Perm (List.range tree.nodes.length) := by
  have hsubset : t.indices ⊆ List.range tree.nodes.length := fun j hj =>
    List.mem_range.mpr (h.bound j hj)
  apply (h.nodup.subperm hsubset).perm_of_length_le
  rw [List.length_range, hlength]

theorem Built.marked_perm (h : Built tree t) (hlength : t.indices.length = tree.nodes.length) :
    t.marked.Perm (tree.nodes.map mark) := by
  refine h.represents.marked_perm.trans ?_
  rw [← filterMap_range_getElem? mark tree.nodes]
  exact (h.indices_perm hlength).filterMap _

theorem Built.entries_perm (h : Built tree t) (hlength : t.indices.length = tree.nodes.length) :
    t.entries.Perm tree.entries := by
  rw [← IntervalNodes.map_fst_marked]
  refine ((h.marked_perm hlength).map _).trans (List.Perm.of_eq ?_)
  rw [List.map_map]
  rfl

end

/-! ## Queries -/

/-- No range without an end that the query overlaps is kept at a node that counts as lying before
the query. -/
def Reached (tree : IntervalTree) (start last : Bound) : Prop :=
  ∀ node ∈ tree.nodes, node.entry.last = .unbounded → node.entry.overlaps start last = true →
    boundLessThan node.maxEnd start = false

instance (tree : IntervalTree) (start last : Bound) : Decidable (tree.Reached start last) :=
  inferInstanceAs (Decidable (∀ node ∈ tree.nodes, _ → _ → _))

theorem findOverlapping_eq_find {tree : IntervalTree} {t : IntervalNodes RangeLockEntry Bytes}
    (h : Built tree t) (start last : Bound) : tree.findOverlapping start last =
      t.find (fun maxEnd => boundLessThan maxEnd start) (fun e => e.overlaps start last)
        (fun e => boundGreaterThan e.start last) := by
  have hfind := find_of_represents start last h.represents h.fuel
  rw [← hfind]
  unfold findOverlapping
  cases hempty : tree.nodes.isEmpty with
  | true =>
      rw [List.isEmpty_iff.mp hempty]
      rfl
  | false => rfl

/-- A query finds each overlapping range once and nothing else, just when no range without an end
is missed. -/
theorem findOverlapping_perm_iff {tree : IntervalTree} (h : tree.Whole) (start last : Bound) :
    (tree.findOverlapping start last).Perm
        (tree.entries.filter fun e => e.overlaps start last) ↔ tree.Reached start last := by
  obtain ⟨t, hbuilt, hlength, hattained⟩ := h
  have hmarked := hbuilt.marked_perm hlength
  have hentries := hbuilt.entries_perm hlength
  have hsublist := IntervalNodes.find_sublist (fun maxEnd => boundLessThan maxEnd start)
    (fun e => e.overlaps start last) (fun e => boundGreaterThan e.start last) t
  have hexact : t.find (fun maxEnd => boundLessThan maxEnd start)
      (fun e => e.overlaps start last) (fun e => boundGreaterThan e.start last) =
        t.entries.filter (fun e => e.overlaps start last) ↔
      ∀ n ∈ t.marked, n.1.overlaps start last = true → boundLessThan n.2 start = false :=
    IntervalNodes.find_eq_filter_iff hbuilt.ordered hattained
      (fun _ _ => boundLessThan_mono start) (fun _ _ => less_of_behind)
  have hperm : (tree.findOverlapping start last).Perm
      (tree.entries.filter fun e => e.overlaps start last) ↔
        t.find (fun maxEnd => boundLessThan maxEnd start) (fun e => e.overlaps start last)
          (fun e => boundGreaterThan e.start last) =
            t.entries.filter fun e => e.overlaps start last := by
    rw [findOverlapping_eq_find hbuilt, ← (hentries.filter _).congr_right]
    constructor
    · exact fun hperm => hsublist.eq_of_length hperm.length_eq
    · exact List.Perm.of_eq
  rw [hperm, hexact, Reached]
  constructor
  · intro hall node hnode _ hoverlaps
    exact hall (mark node) (hmarked.mem_iff.mpr (List.mem_map_of_mem hnode)) hoverlaps
  · intro hreached n hn hoverlaps
    obtain ⟨node, hnode, rfl⟩ := List.mem_map.mp (hmarked.mem_iff.mp hn)
    by_contra hbefore
    have hbefore : boundLessThan node.maxEnd start = true := by simpa [mark] using hbefore
    -- the greatest end at a node is not below the end of its own entry
    have hending : ending node.entry ≤ node.maxEnd :=
      hbuilt.ordered.ending_le_of_mem_marked hn
    refine not_ending_le hoverlaps (fun hlast => ?_) hbefore hending
    by_contra hbehind
    have hfound := hreached node hnode hlast hoverlaps
    rw [hbefore] at hfound
    contradiction

/-- A range contains a key just when it overlaps the range that has only this key. -/
theorem overlaps_key (e : RangeLockEntry) (key : Bytes) :
    e.overlaps (.included key) (.included key) = e.containsKey key := by
  rw [Bool.eq_iff_iff, RangeLockEntry.overlaps_iff, RangeLockEntry.containsKey, inRange_iff,
    and_comm]
  -- beginning before the cut behind the key is beginning at the key or before it
  exact and_congr Cut.lt_behind_iff Iff.rfl

/-- **An overlap test misses no key.**  A range overlaps all bounds that it has a key in common
with, whichever kinds of bounds these are; and it overlaps a single key just when it contains
it. -/
theorem overlaps_sharedKey (e : RangeLockEntry) :
    (∀ start last, (∃ key, e.containsKey key = true ∧ inRange key (start, last) = true) →
      e.overlaps start last = true) ∧
    ∀ key, e.overlaps (.included key) (.included key) = true ↔ e.containsKey key = true := by
  refine ⟨fun start last hshared => ?_, fun key => by rw [overlaps_key]⟩
  obtain ⟨key, hcontains, hin⟩ := hshared
  exact RangeLockEntry.overlaps_of_inRange hcontains hin

/-- Ranges that leave out a bound each and have one key in common. -/
theorem overlaps_sharedKey_between :
    RangeLockEntry.overlaps ⟨1, .x, .excluded [97], .included [98]⟩ (.included [98])
      (.excluded [99]) = true :=
  (overlaps_sharedKey ⟨1, .x, .excluded [97], .included [98]⟩).1 (.included [98]) (.excluded [99])
    ⟨[98], by decide, by decide⟩

/-- For every tree that inserts and removals make, `find_overlapping` returns every stored range
that overlaps the query once and nothing else, and `find_containing_key` every stored range that
contains the key, if and only if there is no range without an end for the query to miss. -/
theorem exact_iff (calls : List RangeCall) :
    (∀ start last, ((Run.run call new calls).findOverlapping start last).Perm
        ((Run.run RangeCall.stored [] calls).filter fun e => e.overlaps start last) ↔
      (Run.run call new calls).Reached start last) ∧
    ∀ key, ((Run.run call new calls).findContainingKey key).Perm
        ((Run.run RangeCall.stored [] calls).filter fun e => e.containsKey key) ↔
      (Run.run call new calls).Reached (.included key) (.included key) := by
  have hwhole := whole_run calls
  rw [← entries_run]
  refine ⟨fun start last => findOverlapping_perm_iff hwhole start last, fun key => ?_⟩
  rw [← findOverlapping_perm_iff hwhole, findContainingKey]
  simp only [overlaps_key]

/-- A range without an end, and a key behind 256 bytes `0xFF`. -/
theorem not_exact_endless :
    ¬ ((Run.run call new [.insert ⟨1, .x, .included [97], .unbounded⟩]).findContainingKey
      (unboundedEnd ++ [0])).Perm
        ((Run.run RangeCall.stored [] [.insert ⟨1, .x, .included [97], .unbounded⟩]).filter
          fun e => e.containsKey (unboundedEnd ++ [0])) := by
  decide +kernel

end IntervalTree
end Crabstash

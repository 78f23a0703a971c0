import Crabstash.Lock.RangeQueries
import Mathlib.Order.Bounds.Defs

/-!
# The shape of the tree of range locks

What holds of the vector of an `IntervalTree` after any calls (`SearchTree`).

* Read from index 0 it is a binary tree that has every index once, and its entries, in order,
  have starts in the order of `compare_starts`, which is that of their cuts.
* The greatest end at a node is the greatest one in the subtree below it; `insert` has raised
  the ends on its way down, before the new node is there.
* The loop of `insert` and the recursion of a search come to an end.  `LoopEnds` and `SearchEnds`
  have one case for each way a round can go; what they derive took finitely many rounds.
-/

namespace Crabstash

namespace IntervalTree

open IntervalNodes

/-! ## The order of the starts -/

theorem compareStarts_eq (a b : Bound) : compareStarts a b = cmp a.startCut b.startCut :=
  (compareStarts_compares a b).cmp_eq.symm

theorem isLE_compareStarts_iff {a b : Bound} :
    (compareStarts a b).isLE = true ↔ a.startCut ≤ b.startCut := by
  rw [Ordering.isLE_iff_ne_gt, (compareStarts_compares a b).eq_gt, not_lt]

instance transCmp_compareStarts : Std.TransCmp compareStarts where
  eq_swap {a b} := by rw [compareStarts_eq, compareStarts_eq, cmp_swap]
  isLE_trans {a b c} hab hbc :=
    isLE_compareStarts_iff.mpr
      ((isLE_compareStarts_iff.mp hab).trans (isLE_compareStarts_iff.mp hbc))

theorem less_eq_false_iff {a b : RangeLockEntry} :
    less b a = false ↔ (compareStarts a.start b.start).isLE = true := by
  rw [Bool.eq_false_iff, ne_eq, less_iff, not_lt, isLE_compareStarts_iff]

/-! ## Subtrees -/

section

variable {nodes : List IntervalNode} {idx : Option ℕ} {t : IntervalNodes RangeLockEntry Bytes}

/-- A vector is read in one way only. -/
theorem represents_unique (h : Represents nodes idx t)
    {t' : IntervalNodes RangeLockEntry Bytes} (h' : Represents nodes idx t') : t = t' := by
  induction h generalizing t' with
  | none =>
      cases h'
      rfl
  | @some i node left right hnode _ _ ihl ihr =>
      cases h' with
      | @some _ node' left' right' hnode' hleft' hright' =>
          obtain rfl := Option.some.inj (hnode.symm.trans hnode')
          rw [ihl hleft', ihr hright']

/-- Every index of the tree is the root of a part of it. -/
theorem exists_subtree (h : Represents nodes idx t)
    (hordered : IntervalNodes.Ordered less ending t) (hattained : IntervalNodes.Attained ending t)
    {i : ℕ} (hi : i ∈ t.indices) : ∃ s, Represents nodes (some i) s ∧
      IntervalNodes.Ordered less ending s ∧ IntervalNodes.Attained ending s := by
  induction h with
  | none => exact absurd hi List.not_mem_nil
  | @some j node left right hnode hleft hright ihl ihr =>
      have hwhole := Represents.some hnode hleft hright
      rcases List.mem_cons.mp hi with rfl | hi
      · exact ⟨_, hwhole, hordered, hattained⟩
      · cases hordered with
        | node hol hor =>
            cases hattained with
            | node hal har =>
                rcases List.mem_append.mp hi with hi | hi
                · exact ihl hol hal hi
                · exact ihr hor har hi

/-- The end at the root of a part is the greatest one in it. -/
theorem isGreatest_maxEnd {i : ℕ} {node : IntervalNode} (hnode : nodes[i]? = some node)
    (h : Represents nodes (some i) t) (hordered : IntervalNodes.Ordered less ending t)
    (hattained : IntervalNodes.Attained ending t) :
    IsGreatest {m | ∃ e ∈ t.entries, boundToBytes e.last = m} node.maxEnd := by
  cases h with
  | @some _ node' _ _ hnode' =>
      obtain rfl := Option.some.inj (hnode.symm.trans hnode')
      cases hordered with
      | node _ _ hends =>
          cases hattained with
          | node _ _ hend =>
              refine ⟨hend, ?_⟩
              rintro m ⟨e, he, rfl⟩
              exact hends e he

end

/-! ## The rounds of the loops -/

/-- The loop of `insert` comes to an end from an index on, and leaves these nodes behind. -/
inductive LoopEnds (entry : RangeLockEntry) (newIdx : ℕ) :
    ℕ → List IntervalNode → List IntervalNode → Prop
  | left {idx : ℕ} {nodes : List IntervalNode} {node : IntervalNode}
      (hnode : nodes[idx]? = some node) (hless : less entry node.entry = true)
      (hfree : node.left = none) :
      LoopEnds entry newIdx idx nodes (nodes.set idx { raised node entry with left := some newIdx })
  | goLeft {idx leftIdx : ℕ} {nodes nodes' : List IntervalNode} {node : IntervalNode}
      (hnode : nodes[idx]? = some node) (hless : less entry node.entry = true)
      (hchild : node.left = some leftIdx)
      (hrest : LoopEnds entry newIdx leftIdx (nodes.set idx (raised node entry)) nodes') :
      LoopEnds entry newIdx idx nodes nodes'
  | right {idx : ℕ} {nodes : List IntervalNode} {node : IntervalNode}
      (hnode : nodes[idx]? = some node) (hless : less entry node.entry = false)
      (hfree : node.right = none) :
      LoopEnds entry newIdx idx nodes
        (nodes.set idx { raised node entry with right := some newIdx })
  | goRight {idx rightIdx : ℕ} {nodes nodes' : List IntervalNode} {node : IntervalNode}
      (hnode : nodes[idx]? = some node) (hless : less entry node.entry = false)
      (hchild : node.right = some rightIdx)
      (hrest : LoopEnds entry newIdx rightIdx (nodes.set idx (raised node entry)) nodes') :
      LoopEnds entry newIdx idx nodes nodes'

/-- `find_overlapping_recursive` returns at an index, or where there is none is not called, and
has pushed these entries. -/
inductive SearchEnds (nodes : List IntervalNode) (start last : Bound) :
    Option ℕ → List RangeLockEntry → Prop
  | none : SearchEnds nodes start last none []
  | before {idx : ℕ} {node : IntervalNode} (hnode : nodes[idx]? = some node)
      (hbefore : boundLessThan node.maxEnd start = true) :
      SearchEnds nodes start last (some idx) []
  | node {idx : ℕ} {node : IntervalNode} {fromLeft fromRight : List RangeLockEntry}
      (hnode : nodes[idx]? = some node) (hbefore : boundLessThan node.maxEnd start = false)
      (hleft : SearchEnds nodes start last node.left fromLeft)
      (hright : SearchEnds nodes start last
        (if boundGreaterThan node.entry.start last then none else node.right) fromRight) :
      SearchEnds nodes start last (some idx)
        (fromLeft ++ (if node.entry.overlaps start last then [node.entry] else []) ++ fromRight)

/-- In a tree the loop comes to a free place, after no more rounds than there are nodes. -/
theorem loopEnds_descend (entry : RangeLockEntry) (newIdx : ℕ) {nodes : List IntervalNode}
    {idx fuel : ℕ} {t : IntervalNodes RangeLockEntry Bytes} (h : Represents nodes (some idx) t)
    (hnodup : t.indices.Nodup) (hfuel : t.indices.length ≤ fuel) :
    LoopEnds entry newIdx idx nodes (descend entry newIdx fuel idx nodes) := by
  induction t generalizing nodes idx fuel with
  | leaf => cases h
  | node i e m left right ihl ihr =>
      cases h with
      | @some _ node _ _ hnode hleft hright =>
          simp only [IntervalNodes.indices, List.nodup_cons, List.nodup_append, List.mem_append,
            not_or] at hnodup
          obtain ⟨⟨hil, hir⟩, hnodupl, hnodupr, -⟩ := hnodup
          simp only [IntervalNodes.indices, List.length_cons, List.length_append] at hfuel
          obtain ⟨fuel, rfl⟩ : ∃ n, fuel = n + 1 := ⟨fuel - 1, by omega⟩
          rw [descend_succ entry newIdx fuel hnode]
          split
          · next hless =>
              cases hchild : node.left with
              | none => exact .left hnode hless hchild
              | some leftIdx =>
                  rw [hchild] at hleft
                  exact .goLeft hnode hless hchild
                    (ihl (represents_set _ hil hleft) hnodupl (by omega))
          · next hless =>
              have hless : less entry node.entry = false := by simpa using hless
              cases hchild : node.right with
              | none => exact .right hnode hless hchild
              | some rightIdx =>
                  rw [hchild] at hright
                  exact .goRight hnode hless hchild
                    (ihr (represents_set _ hir hright) hnodupr (by omega))

theorem searchEnds_of_represents (start last : Bound) {nodes : List IntervalNode}
    {idx : Option ℕ} {t : IntervalNodes RangeLockEntry Bytes} (h : Represents nodes idx t) :
    SearchEnds nodes start last idx
      (t.find (fun maxEnd => boundLessThan maxEnd start) (fun e => e.overlaps start last)
        (fun e => boundGreaterThan e.start last)) := by
  induction h with
  | none => exact .none
  | @some i node left right hnode _ _ ihl ihr =>
      rw [IntervalNodes.find]
      split
      · next hbefore => exact .before hnode hbefore
      · next hbefore =>
          refine .node hnode (by simpa using hbefore) ihl ?_
          split
          · exact .none
          · exact ihr

/-! ## After any calls -/

/-- Where a walk over the tree begins. -/
def root (tree : IntervalTree) : Option ℕ := if tree.nodes.isEmpty then none else some 0

/-- The vector is a search tree with the entries given. -/
structure SearchTree (tree : IntervalTree) (stored : List RangeLockEntry) : Prop where
  walk : ∃ t, Represents tree.nodes tree.root t ∧
    t.indices.Perm (List.range tree.nodes.length) ∧
    t.entries.Pairwise (fun a b => (compareStarts a.start b.start).isLE = true) ∧
    t.entries.Perm stored
  maxEnd : ∀ i node, tree.nodes[i]? = some node → ∃ t, Represents tree.nodes (some i) t ∧
    IsGreatest {m | ∃ e ∈ t.entries, boundToBytes e.last = m} node.maxEnd
  entries : tree.entries = stored
  insertEnds : ∀ entry, tree.nodes ≠ [] → ∃ nodes,
    LoopEnds entry tree.nodes.length 0 tree.nodes nodes ∧
      (tree.insert entry).nodes = nodes ++ [newNode entry]
  searchEnds : ∀ start last,
    SearchEnds tree.nodes start last tree.root (tree.findOverlapping start last)

/-- The entries are in the order of their starts. -/
def InOrder (tree : IntervalTree) : Prop :=
  ∀ t, Represents tree.nodes tree.root t → t.entries.Pairwise fun a b => less b a = false

theorem inOrder_new : InOrder new := by
  intro t h
  cases h
  exact List.Pairwise.nil

theorem InOrder.insert {tree : IntervalTree} (h : tree.InOrder) (hwhole : tree.Whole)
    (entry : RangeLockEntry) : (tree.insert entry).InOrder := by
  obtain ⟨t, hbuilt, -, -⟩ := hwhole
  intro t' h'
  obtain rfl := represents_unique (hbuilt.insert entry).represents h'
  apply IntervalNodes.pairwise_entries_insert
  · intro a b hless
    rw [less_iff] at hless
    exact Bool.eq_false_iff.mpr fun hless' => hless.asymm (less_iff.mp hless')
  · intro a b c hab hbc
    rw [less_eq_false_iff] at hab hbc ⊢
    exact Std.TransCmp.isLE_trans hab hbc
  · exact h t hbuilt.represents

theorem searchTree_of_whole {tree : IntervalTree} (hwhole : tree.Whole) (horder : tree.InOrder) :
    SearchTree tree tree.entries := by
  obtain ⟨t, hbuilt, hlength, hattained⟩ := hwhole
  have hentries := hbuilt.entries_perm hlength
  have hindices := hbuilt.indices_perm hlength
  constructor
  · refine ⟨t, hbuilt.represents, hindices, ?_, hentries⟩
    exact (horder t hbuilt.represents).imp less_eq_false_iff.mp
  · intro i node hnode
    have hi : i ∈ t.indices :=
      hindices.mem_iff.mpr (List.mem_range.mpr (List.getElem?_eq_some_iff.mp hnode).1)
    obtain ⟨s, hs, hordered, hsAttained⟩ :=
      exists_subtree hbuilt.represents hbuilt.ordered hattained hi
    exact ⟨s, hs, isGreatest_maxEnd hnode hs hordered hsAttained⟩
  · rfl
  · intro entry hne
    have hempty : ¬ tree.nodes.isEmpty = true := by simpa [List.isEmpty_iff] using hne
    have hrep := hbuilt.represents
    rw [if_neg hempty] at hrep
    refine ⟨_, loopEnds_descend entry tree.nodes.length hrep hbuilt.nodup hbuilt.fuel, ?_⟩
    unfold IntervalTree.insert
    rw [if_neg hempty]
    rfl
  · intro start last
    rw [findOverlapping_eq_find hbuilt]
    exact searchEnds_of_represents start last hbuilt.represents

/-- **The tree after any calls.**  For every sequence of inserts and removals the nodes are one
binary tree with root 0, ordered by the starts, each with the greatest end below it; the entries
are those inserted and not removed; and the loop of the next insert and every search come to an
end.  `compare_starts` is a total preorder. -/
theorem searchTree_run (calls : List RangeCall) :
    SearchTree (Run.run call new calls) (Run.run RangeCall.stored [] calls) ∧
      Std.TransCmp compareStarts := by
  have hboth : (Run.run call new calls).Whole ∧ (Run.run call new calls).InOrder :=
    run_induct (P := fun tree => tree.Whole ∧ tree.InOrder) ⟨whole_new, inOrder_new⟩
      (fun _ entry h => ⟨h.1.insert entry, h.2.insert h.1 entry⟩) calls
  rw [← entries_run]
  exact ⟨searchTree_of_whole hboth.1 hboth.2, transCmp_compareStarts⟩

end IntervalTree
end Crabstash

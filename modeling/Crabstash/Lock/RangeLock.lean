import Crabstash.Common.Key
import Crabstash.Foundations.Cut
import Crabstash.Foundations.HashMap
import Crabstash.Foundations.IntervalTree
import Crabstash.Lock.LockMode

/-!
# Range locks

`RangeLockEntry` and `IntervalTree` of `range_lock.rs`.  The tree is a vector of nodes that
refer to each other by index; the node at index 0 is the root, and a new node is pushed at
the end.

`Represents` reads such a vector as a tree.  The loop of `insert` changes the nodes on one
path and nothing else, so that the rest of the vector still represents what it did
(`represents_congr`); what it does to the tree is `IntervalNodes.insert`, and the recursive
search is `IntervalNodes.find`.  From this `mem_findOverlapping`: a search finds every
overlapping range, except for ranges without an end, which are kept as if they ended at
256 bytes `0xFF`.

Each comparison of bounds in the source is one of two cuts (`startCut`, `endCut`): of a start with
an end in `overlaps` (`overlaps_iff`), of two starts in `compare_starts` (`less_iff`).
-/

namespace Crabstash

namespace Bound

/-- Where a range with this start begins. -/
def startCut : Bound → Cut Bytes
  | .unbounded => ⊥
  | .included key => Cut.before key
  | .excluded key => Cut.behind key

/-- Where a range with this end stops. -/
def endCut : Bound → Cut Bytes
  | .unbounded => ⊤
  | .included key => Cut.behind key
  | .excluded key => Cut.before key

end Bound

theorem inRange_iff {key : Bytes} {start last : Bound} : inRange key (start, last) = true ↔
    start.startCut ≤ Cut.before key ∧ Cut.before key < last.endCut := by
  rw [inRange, Bool.and_eq_true, ← not_lt]
  refine and_congr ?_ ?_
  · cases start <;> simp [Bound.startCut]
  · cases last <;> simp [Bound.endCut]

/-- `end` is `last` here. -/
structure RangeLockEntry where
  txnId : ℕ
  mode : LockMode
  start : Bound
  last : Bound
  deriving DecidableEq, Repr

namespace RangeLockEntry

/-- `contains_key`. -/
def containsKey (e : RangeLockEntry) (key : Bytes) : Bool := inRange key (e.start, e.last)

/-- `is_before`: the range ends before the other one starts. -/
def isBefore (e : RangeLockEntry) (otherStart : Bound) : Bool :=
  match e.last, otherStart with
  | .unbounded, _ => false
  | _, .unbounded => false
  | .included e, .included s => decide (e < s)
  | .included e, .excluded s => decide (e ≤ s)
  | .excluded e, .included s => decide (e ≤ s)
  | .excluded e, .excluded s => decide (e ≤ s)

/-- `is_after`: the range starts after the other one ends. -/
def isAfter (e : RangeLockEntry) (otherEnd : Bound) : Bool :=
  match e.start, otherEnd with
  | .unbounded, _ => false
  | _, .unbounded => false
  | .included s, .included e => decide (e < s)
  | .included s, .excluded e => decide (e ≤ s)
  | .excluded s, .included e => decide (e ≤ s)
  | .excluded s, .excluded e => decide (e ≤ s)

/-- `overlaps`: neither range is before the other. -/
def overlaps (e : RangeLockEntry) (otherStart otherEnd : Bound) : Bool :=
  !e.isBefore otherStart && !e.isAfter otherEnd

theorem overlaps_iff {e : RangeLockEntry} {start last : Bound} : e.overlaps start last = true ↔
    start.startCut < e.last.endCut ∧ e.start.startCut < last.endCut := by
  obtain ⟨txnId, mode, eStart, eLast⟩ := e
  rw [overlaps, Bool.and_eq_true]
  refine and_congr ?_ ?_
  · cases eLast <;> cases start <;> simp [isBefore, Bound.startCut, Bound.endCut]
  · cases eStart <;> cases last <;> simp [isAfter, Bound.startCut, Bound.endCut]

/-- Ranges with a key in common overlap. -/
theorem overlaps_of_inRange {e : RangeLockEntry} {start last : Bound} {key : Bytes}
    (hcontains : e.containsKey key = true) (hin : inRange key (start, last) = true) :
    e.overlaps start last = true := by
  obtain ⟨hbegins, hstops⟩ := inRange_iff.mp hcontains
  obtain ⟨hbegins', hstops'⟩ := inRange_iff.mp hin
  exact overlaps_iff.mpr ⟨hbegins'.trans_lt hstops, hbegins.trans_lt hstops'⟩

end RangeLockEntry

/-- A node of the tree; its children are positions in the vector. -/
structure IntervalNode where
  entry : RangeLockEntry
  maxEnd : Bytes
  left : Option ℕ
  right : Option ℕ
  deriving DecidableEq, Repr

/-- The tree is a vector of nodes with the root in front; nodes are never moved. -/
structure IntervalTree where
  nodes : List IntervalNode
  deriving DecidableEq, Repr

namespace IntervalTree

/-- `IntervalTree::new`. -/
def new : IntervalTree := { nodes := [] }

/-- The end that an unbounded range is given. -/
def unboundedEnd : Bytes := List.replicate 256 0xFF

/-- `bound_to_bytes`: a range without an end counts as ending at `[0xFF; 256]`. -/
def boundToBytes : Bound → Bytes
  | .included b => b
  | .excluded b => b
  | .unbounded => unboundedEnd

/-- `compare_starts`. -/
def compareStarts : Bound → Bound → Ordering
  | .unbounded, .unbounded => .eq
  | .unbounded, _ => .lt
  | _, .unbounded => .gt
  | .included a, .included b => cmp a b
  | .included a, .excluded b => if a ≤ b then .lt else .gt
  | .excluded a, .included b => if a < b then .lt else .gt
  | .excluded a, .excluded b => cmp a b

/-- `bound_less_than`: no end in the subtree reaches the start looked for. -/
def boundLessThan (maxEnd : Bytes) : Bound → Bool
  | .unbounded => false
  | .included s => decide (maxEnd < s)
  | .excluded s => decide (maxEnd ≤ s)

/-- `bound_greater_than`: the node starts behind the end looked for. -/
def boundGreaterThan (nodeStart last : Bound) : Bool :=
  match nodeStart, last with
  | .unbounded, _ => false
  | _, .unbounded => false
  | .included s, .included e => decide (e < s)
  | .included s, .excluded e => decide (e ≤ s)
  | .excluded s, .included e => decide (e < s)
  | .excluded s, .excluded e => decide (e ≤ s)

/-! ## Inserting -/

/-- The loop of `insert`: down to the place of the new node, which will have the index
`newIdx`.  There are at most as many rounds as there are nodes. -/
def descend (entry : RangeLockEntry) (newIdx : ℕ) :
    ℕ → ℕ → List IntervalNode → List IntervalNode
  | 0, _, nodes => nodes
  | fuel + 1, idx, nodes =>
      match nodes[idx]? with
      | none => nodes
      | some node =>
          let maxEnd := boundToBytes entry.last
          let node := if node.maxEnd < maxEnd then { node with maxEnd } else node
          if compareStarts entry.start node.entry.start = .lt then
            match node.left with
            | some leftIdx => descend entry newIdx fuel leftIdx (nodes.set idx node)
            | none => nodes.set idx { node with left := some newIdx }
          else
            match node.right with
            | some rightIdx => descend entry newIdx fuel rightIdx (nodes.set idx node)
            | none => nodes.set idx { node with right := some newIdx }

/-- `insert`: the new node is the last one, hung below the node where the descent ends. -/
def insert (t : IntervalTree) (entry : RangeLockEntry) : IntervalTree :=
  let node := { entry, maxEnd := boundToBytes entry.last, left := none, right := none }
  if t.nodes.isEmpty then { nodes := [node] }
  else { nodes := descend entry t.nodes.length t.nodes.length 0 t.nodes ++ [node] }

/-- The ranges in the order of the vector. -/
def entries (t : IntervalTree) : List RangeLockEntry := t.nodes.map IntervalNode.entry

/-- `remove_by_txn` with `rebuild`. -/
def removeByTxn (t : IntervalTree) (txnId : ℕ) : IntervalTree :=
  (t.entries.filter fun e => e.txnId != txnId).foldl insert new

/-! ## Searching -/

/-- `find_overlapping_recursive`, the results in order. -/
def findOverlappingRecursive (nodes : List IntervalNode) (start last : Bound) :
    ℕ → ℕ → List RangeLockEntry
  | 0, _ => []
  | fuel + 1, idx =>
      match nodes[idx]? with
      | none => []
      | some node =>
          if boundLessThan node.maxEnd start then []
          else
            (match node.left with
              | some leftIdx => findOverlappingRecursive nodes start last fuel leftIdx
              | none => []) ++
            (if node.entry.overlaps start last then [node.entry] else []) ++
            if boundGreaterThan node.entry.start last then []
            else
              match node.right with
              | some rightIdx => findOverlappingRecursive nodes start last fuel rightIdx
              | none => []

/-- `find_overlapping`, from the root. -/
def findOverlapping (t : IntervalTree) (start last : Bound) : List RangeLockEntry :=
  findOverlappingRecursive t.nodes start last t.nodes.length 0

/-- `find_containing_key`: the ranges that overlap the one of this key alone. -/
def findContainingKey (t : IntervalTree) (key : Bytes) : List RangeLockEntry :=
  t.findOverlapping (.included key) (.included key)

/-! ## The vector as a tree -/

/-- The order of `insert`, which goes left only where the start is smaller. -/
def less (a b : RangeLockEntry) : Bool := decide (compareStarts a.start b.start = .lt)

/-- The end an entry is kept with. -/
def ending (e : RangeLockEntry) : Bytes := boundToBytes e.last

/-- The nodes that can be reached from an index are a tree. -/
inductive Represents (nodes : List IntervalNode) :
    Option ℕ → IntervalNodes RangeLockEntry Bytes → Prop
  | none : Represents nodes none .leaf
  | some {i : ℕ} {node : IntervalNode} {left right : IntervalNodes RangeLockEntry Bytes}
      (hnode : nodes[i]? = some node) (hleft : Represents nodes node.left left)
      (hright : Represents nodes node.right right) :
      Represents nodes (some i) (.node i node.entry node.maxEnd left right)

theorem represents_congr {nodes nodes' : List IntervalNode} {idx : Option ℕ}
    {t : IntervalNodes RangeLockEntry Bytes} (h : Represents nodes idx t)
    (hsame : ∀ j ∈ t.indices, nodes'[j]? = nodes[j]?) : Represents nodes' idx t := by
  induction h with
  | none => exact Represents.none
  | @some i node left right hnode _ _ ihl ihr =>
      refine Represents.some ?_ (ihl ?_) (ihr ?_)
      · rw [hsame i (List.mem_cons_self ..), hnode]
      · exact fun j hj => hsame j (List.mem_cons_of_mem _ (List.mem_append_left _ hj))
      · exact fun j hj => hsame j (List.mem_cons_of_mem _ (List.mem_append_right _ hj))

/-- A node that a subtree does not have can be written. -/
theorem represents_set {nodes : List IntervalNode} {i : ℕ} (node' : IntervalNode) {idx : Option ℕ}
    {t : IntervalNodes RangeLockEntry Bytes} (hi : i ∉ t.indices) (h : Represents nodes idx t) :
    Represents (nodes.set i node') idx t :=
  represents_congr h fun _ hj => List.getElem?_set_ne (ne_of_mem_of_not_mem hj hi).symm

/-- The node that is pushed. -/
def newNode (entry : RangeLockEntry) : IntervalNode :=
  { entry, maxEnd := boundToBytes entry.last, left := none, right := none }

/-- A node on the path of a new entry, with its end raised. -/
def raised (node : IntervalNode) (entry : RangeLockEntry) : IntervalNode :=
  { node with maxEnd := max node.maxEnd (ending entry) }

/-- One round of the loop. -/
theorem descend_succ (entry : RangeLockEntry) (newIdx fuel : ℕ) {nodes : List IntervalNode}
    {idx : ℕ} {node : IntervalNode} (hnode : nodes[idx]? = some node) :
    descend entry newIdx (fuel + 1) idx nodes =
      if less entry node.entry = true then
        match node.left with
        | some leftIdx =>
            descend entry newIdx fuel leftIdx (nodes.set idx (raised node entry))
        | none => nodes.set idx { raised node entry with left := some newIdx }
      else
        match node.right with
        | some rightIdx =>
            descend entry newIdx fuel rightIdx (nodes.set idx (raised node entry))
        | none => nodes.set idx { raised node entry with right := some newIdx } := by
  have hraised : (if node.maxEnd < boundToBytes entry.last then
      { node with maxEnd := boundToBytes entry.last } else node) = raised node entry := by
    unfold raised ending
    split
    · next hlt => rw [max_eq_right hlt.le]
    · next hge => rw [max_eq_left (not_lt.mp hge)]
  rw [descend, hnode]
  simp only [hraised]
  unfold less
  simp only [decide_eq_true_eq]
  rfl

theorem map_entry_set {nodes : List IntervalNode} {i : ℕ} {node node' : IntervalNode}
    (hnode : nodes[i]? = some node) (hentry : node'.entry = node.entry) :
    (nodes.set i node').map IntervalNode.entry = nodes.map IntervalNode.entry := by
  rw [List.map_set, hentry]
  apply List.ext_getElem?
  intro j
  rw [List.getElem?_set]
  split
  · next heq =>
      subst heq
      simp only [List.length_map, List.getElem?_map, hnode, Option.map_some]
      rw [if_pos (List.getElem?_eq_some_iff.mp hnode).1]
  · rfl

/-- The loop changes no entry. -/
theorem map_entry_descend (entry : RangeLockEntry) (newIdx fuel idx : ℕ)
    (nodes : List IntervalNode) :
    (descend entry newIdx fuel idx nodes).map IntervalNode.entry =
      nodes.map IntervalNode.entry := by
  induction fuel generalizing idx nodes with
  | zero => rfl
  | succ fuel ih =>
      cases hnode : nodes[idx]? with
      | none => rw [descend, hnode]
      | some node =>
          rw [descend_succ entry newIdx fuel hnode]
          split
          · cases node.left with
            | some leftIdx => exact (ih ..).trans (map_entry_set hnode rfl)
            | none => exact map_entry_set hnode rfl
          · cases node.right with
            | some rightIdx => exact (ih ..).trans (map_entry_set hnode rfl)
            | none => exact map_entry_set hnode rfl

/-- What the loop makes of a subtree: the rest of the vector stays, and with the new node
at the end the subtree is the one with the entry inserted. -/
structure Descends (entry : RangeLockEntry) (nodes nodes' : List IntervalNode) (idx : ℕ)
    (t : IntervalNodes RangeLockEntry Bytes) : Prop where
  length : nodes'.length = nodes.length
  others : ∀ j, j ∉ t.indices → nodes'[j]? = nodes[j]?
  represents : Represents (nodes' ++ [newNode entry]) (some idx)
    (t.insert less ending nodes.length entry)

/-- The new node alone. -/
theorem represents_newNode (entry : RangeLockEntry) (nodes : List IntervalNode) :
    Represents (nodes ++ [newNode entry]) (some nodes.length)
      (IntervalNodes.leaf.insert less ending nodes.length entry) := by
  have hnode : (nodes ++ [newNode entry])[nodes.length]? = some (newNode entry) :=
    List.getElem?_concat_length
  exact Represents.some hnode Represents.none Represents.none

/-- A node with its two subtrees, as the vector has them after the loop. -/
theorem represents_node {nodes : List IntervalNode} {i : ℕ} (node : IntervalNode)
    {entry : RangeLockEntry} {maxEnd : Bytes} {left right : IntervalNodes RangeLockEntry Bytes}
    (hnode : nodes[i]? = some node) (hentry : node.entry = entry) (hmaxEnd : node.maxEnd = maxEnd)
    (hleft : Represents nodes node.left left) (hright : Represents nodes node.right right) :
    Represents nodes (some i) (.node i entry maxEnd left right) := by
  subst hentry hmaxEnd
  exact Represents.some hnode hleft hright

/-- A subtree that the descent has not come into. -/
theorem represents_kept (entry : RangeLockEntry) {nodes nodes' : List IntervalNode}
    {idx : Option ℕ} {t : IntervalNodes RangeLockEntry Bytes} (h : Represents nodes idx t)
    (hbound : ∀ j ∈ t.indices, j < nodes.length) (hlength : nodes'.length = nodes.length)
    (hsame : ∀ j ∈ t.indices, nodes'[j]? = nodes[j]?) :
    Represents (nodes' ++ [newNode entry]) idx t := by
  apply represents_congr h
  intro j hj
  rw [List.getElem?_append_left (hlength ▸ hbound j hj), hsame j hj]

/-- Where there is no node yet, the new one is put. -/
theorem descends_leaf (entry : RangeLockEntry) (nodes : List IntervalNode) :
    Descends entry nodes nodes nodes.length .leaf :=
  ⟨rfl, fun _ _ => rfl, represents_newNode entry nodes⟩

section Node

variable {entry : RangeLockEntry} {nodes nodes' : List IntervalNode} {i idx : ℕ}
  {node' : IntervalNode} {child other t : IntervalNodes RangeLockEntry Bytes}

/-- A node has been written and the descent has gone on into its child: the vector has the node
and, below it, the child with the entry inserted. -/
theorem Descends.grown (h : Descends entry (nodes.set i node') nodes' idx child)
    (hi : i < nodes.length) (hchild : i ∉ child.indices) :
    (nodes' ++ [newNode entry])[i]? = some node' ∧
      Represents (nodes' ++ [newNode entry]) (some idx)
        (child.insert less ending nodes.length entry) := by
  have hlength : nodes'.length = nodes.length := h.length.trans List.length_set
  have hrep := h.represents
  rw [List.length_set] at hrep
  refine ⟨?_, hrep⟩
  rw [List.getElem?_append_left (hlength.symm ▸ hi), h.others i hchild, List.getElem?_set_self hi]

/-- The other subtree stays. -/
theorem Descends.kept (h : Descends entry (nodes.set i node') nodes' idx child) {o : Option ℕ}
    (hother : Represents nodes o other) (hbound : ∀ j ∈ other.indices, j < nodes.length)
    (hi : i ∉ other.indices) (hdisjoint : ∀ j ∈ other.indices, j ∉ child.indices) :
    Represents (nodes' ++ [newNode entry]) o other := by
  apply represents_kept entry hother hbound (h.length.trans List.length_set)
  intro j hj
  rw [h.others j (hdisjoint j hj)]
  exact List.getElem?_set_ne (ne_of_mem_of_not_mem hj hi).symm

/-- The descent has gone on from a node into one of its subtrees, `child`. -/
theorem Descends.parent (h : Descends entry (nodes.set i node') nodes' idx child)
    (hmem : ∀ j, j ∉ t.indices → j ≠ i ∧ j ∉ child.indices)
    (hrep : Represents (nodes' ++ [newNode entry]) (some i)
      (t.insert less ending nodes.length entry)) :
    Descends entry nodes nodes' i t := by
  refine ⟨h.length.trans List.length_set, ?_, hrep⟩
  intro j hj
  obtain ⟨hne, hchild⟩ := hmem j hj
  rw [h.others j hchild, List.getElem?_set_ne hne.symm]

variable {node : IntervalNode} {left right : IntervalNodes RangeLockEntry Bytes}

/-- The entry is less than that of the node: the descent has gone into the left subtree. -/
theorem descends_left (hless : less entry node.entry = true)
    (hnodup : (IntervalNodes.node i node.entry node.maxEnd left right).indices.Nodup)
    (hbound : ∀ j ∈ (IntervalNodes.node i node.entry node.maxEnd left right).indices,
      j < nodes.length)
    (hright : Represents nodes node.right right)
    (h : Descends entry (nodes.set i { raised node entry with left := some idx }) nodes' idx left) :
    Descends entry nodes nodes' i (.node i node.entry node.maxEnd left right) := by
  have hinsert : (IntervalNodes.node i node.entry node.maxEnd left right).insert less
      ending nodes.length entry = .node i node.entry (max node.maxEnd (ending entry))
        (left.insert less ending nodes.length entry) right := if_pos hless
  simp only [IntervalNodes.indices, List.nodup_cons, List.nodup_append, List.mem_append,
    not_or] at hnodup
  obtain ⟨⟨hil, hir⟩, -, -, hdisjoint⟩ := hnodup
  simp only [IntervalNodes.indices, List.mem_cons, List.mem_append] at hbound
  obtain ⟨hself, hchild⟩ := h.grown (hbound i (Or.inl rfl)) hil
  apply h.parent
  · intro j hj
    simp only [IntervalNodes.indices, List.mem_cons, List.mem_append, not_or] at hj
    exact ⟨hj.1, hj.2.1⟩
  · rw [hinsert]
    refine represents_node _ hself rfl rfl hchild ?_
    exact h.kept hright (fun j hj => hbound j (Or.inr (Or.inr hj))) hir
      fun j hj hjl => hdisjoint j hjl j hj rfl

/-- The entry is not less than that of the node: the descent has gone into the right one. -/
theorem descends_right (hless : ¬ less entry node.entry = true)
    (hnodup : (IntervalNodes.node i node.entry node.maxEnd left right).indices.Nodup)
    (hbound : ∀ j ∈ (IntervalNodes.node i node.entry node.maxEnd left right).indices,
      j < nodes.length)
    (hleft : Represents nodes node.left left)
    (h : Descends entry (nodes.set i { raised node entry with right := some idx }) nodes' idx
      right) :
    Descends entry nodes nodes' i (.node i node.entry node.maxEnd left right) := by
  have hinsert : (IntervalNodes.node i node.entry node.maxEnd left right).insert less
      ending nodes.length entry = .node i node.entry (max node.maxEnd (ending entry))
        left (right.insert less ending nodes.length entry) := if_neg hless
  simp only [IntervalNodes.indices, List.nodup_cons, List.nodup_append, List.mem_append,
    not_or] at hnodup
  obtain ⟨⟨hil, hir⟩, -, -, hdisjoint⟩ := hnodup
  simp only [IntervalNodes.indices, List.mem_cons, List.mem_append] at hbound
  obtain ⟨hself, hchild⟩ := h.grown (hbound i (Or.inl rfl)) hir
  apply h.parent
  · intro j hj
    simp only [IntervalNodes.indices, List.mem_cons, List.mem_append, not_or] at hj
    exact ⟨hj.1, hj.2.2⟩
  · rw [hinsert]
    refine represents_node _ hself rfl rfl ?_ hchild
    exact h.kept hleft (fun j hj => hbound j (Or.inr (Or.inl hj))) hil
      fun j hj hjr => hdisjoint j hj j hjr rfl

end Node

theorem descend_spec (entry : RangeLockEntry) {nodes : List IntervalNode} {idx fuel : ℕ}
    {t : IntervalNodes RangeLockEntry Bytes} (h : Represents nodes (some idx) t)
    (hnodup : t.indices.Nodup) (hbound : ∀ j ∈ t.indices, j < nodes.length)
    (hfuel : t.indices.length ≤ fuel) :
    Descends entry nodes (descend entry nodes.length fuel idx nodes) idx t := by
  induction t generalizing nodes idx fuel with
  | leaf => cases h
  | node i e m left right ihl ihr =>
      cases h with
      | @some _ node _ _ hnode hleft hright =>
          -- the two subtrees share no index with each other or the root
          have hparts := hnodup
          simp only [IntervalNodes.indices, List.nodup_cons, List.nodup_append, List.mem_append,
            not_or] at hparts
          obtain ⟨⟨hil, hir⟩, hnodupl, hnodupr, -⟩ := hparts
          simp only [IntervalNodes.indices, List.length_cons, List.length_append] at hfuel
          obtain ⟨fuel, rfl⟩ : ∃ n, fuel = n + 1 := ⟨fuel - 1, by omega⟩
          have hlength (node' : IntervalNode) : (nodes.set i node').length = nodes.length :=
            List.length_set
          rw [descend_succ entry nodes.length fuel hnode]
          split
          · next hless =>
              cases hchild : node.left with
              | none =>
                  rw [hchild] at hleft
                  cases hleft
                  apply descends_left hless hnodup hbound hright
                  exact hlength _ ▸ descends_leaf entry _
              | some leftIdx =>
                  rw [hchild] at hleft
                  apply descends_left hless hnodup hbound hright
                  -- the pointer to the child was there before
                  have hraised : { raised node entry with left := some leftIdx } =
                      raised node entry := by rw [← hchild]; rfl
                  rw [hraised, ← hlength (raised node entry)]
                  refine ihl (represents_set _ hil hleft) hnodupl ?_ (by omega)
                  intro j hj
                  rw [hlength]
                  exact hbound j (by simp [IntervalNodes.indices, hj])
          · next hless =>
              cases hchild : node.right with
              | none =>
                  rw [hchild] at hright
                  cases hright
                  apply descends_right hless hnodup hbound hleft
                  exact hlength _ ▸ descends_leaf entry _
              | some rightIdx =>
                  rw [hchild] at hright
                  apply descends_right hless hnodup hbound hleft
                  have hraised : { raised node entry with right := some rightIdx } =
                      raised node entry := by rw [← hchild]; rfl
                  rw [hraised, ← hlength (raised node entry)]
                  refine ihr (represents_set _ hir hright) hnodupr ?_ (by omega)
                  intro j hj
                  rw [hlength]
                  exact hbound j (by simp [IntervalNodes.indices, hj])

/-! ## The tree of a run -/

/-- The vector is the tree that the inserts so far have made. -/
structure Built (tree : IntervalTree) (t : IntervalNodes RangeLockEntry Bytes) : Prop where
  represents : Represents tree.nodes (if tree.nodes.isEmpty then none else some 0) t
  nodup : t.indices.Nodup
  bound : ∀ j ∈ t.indices, j < tree.nodes.length
  ordered : IntervalNodes.Ordered less ending t
  mem_entries : ∀ e, e ∈ t.entries ↔ e ∈ tree.entries

/-- As many rounds as there are nodes are enough. -/
theorem Built.fuel {tree : IntervalTree} {t : IntervalNodes RangeLockEntry Bytes}
    (h : Built tree t) : t.indices.length ≤ tree.nodes.length := by
  have hsubset : t.indices ⊆ List.range tree.nodes.length := fun j hj =>
    List.mem_range.mpr (h.bound j hj)
  simpa using (h.nodup.subperm hsubset).length_le

theorem built_new : Built new .leaf where
  represents := Represents.none
  nodup := List.nodup_nil
  bound := fun _ hj => absurd hj List.not_mem_nil
  ordered := IntervalNodes.Ordered.leaf
  mem_entries := fun _ => Iff.rfl

theorem entries_insert (tree : IntervalTree) (entry : RangeLockEntry) :
    (tree.insert entry).entries = tree.entries ++ [entry] := by
  unfold insert entries
  split
  · next hempty => simp [List.isEmpty_iff.mp hempty]
  · simp only [List.map_append, map_entry_descend]
    rfl

/-- An insert into the vector is an insert into the tree. -/
theorem Built.insert {tree : IntervalTree} {t : IntervalNodes RangeLockEntry Bytes}
    (h : Built tree t) (entry : RangeLockEntry) :
    Built (tree.insert entry) (t.insert less ending tree.nodes.length entry) := by
  have hmem : ∀ e, e ∈ (t.insert less ending tree.nodes.length entry).entries ↔
      e ∈ (tree.insert entry).entries := by
    intro e
    rw [IntervalNodes.mem_entries_insert, h.mem_entries, entries_insert, List.mem_append,
      List.mem_singleton]
    exact or_comm
  -- the new node has the index behind all others
  have hfresh : tree.nodes.length ∉ t.indices := fun hj => lt_irrefl _ (h.bound _ hj)
  have hnodup : (t.insert less ending tree.nodes.length entry).indices.Nodup :=
    IntervalNodes.nodup_indices_insert h.nodup hfresh
  have hlength : (tree.insert entry).nodes.length = tree.nodes.length + 1 := by
    simpa [entries] using congrArg List.length (entries_insert tree entry)
  have hbound : ∀ j ∈ (t.insert less ending tree.nodes.length entry).indices,
      j < (tree.insert entry).nodes.length := by
    intro j hj
    rw [hlength]
    rcases IntervalNodes.mem_indices_insert.mp hj with rfl | hj
    · omega
    · have := h.bound j hj
      omega
  refine ⟨?_, hnodup, hbound, h.ordered.insert _ _, hmem⟩
  -- the first entry becomes the root; a later one goes down from it
  have hrep := h.represents
  by_cases hempty : tree.nodes.isEmpty = true
  · rw [if_pos hempty] at hrep
    cases hrep
    have hnodes : tree.nodes = [] := List.isEmpty_iff.mp hempty
    unfold IntervalTree.insert
    rw [if_pos hempty, hnodes]
    exact represents_newNode entry []
  · rw [if_neg hempty] at hrep
    have hdescends := (descend_spec entry hrep h.nodup h.bound h.fuel).represents
    unfold IntervalTree.insert
    rw [if_neg hempty]
    have hnonempty : (descend entry tree.nodes.length tree.nodes.length 0 tree.nodes ++
        [newNode entry]).isEmpty = false := by simp
    show Represents _ (if (_ ++ [newNode entry]).isEmpty then none else some 0) _
    rw [hnonempty]
    exact hdescends

/-- The inserts so far have made a search tree of the vector. -/
def WellFormed (tree : IntervalTree) : Prop := ∃ t, Built tree t

theorem wellFormed_new : WellFormed new := ⟨_, built_new⟩

theorem WellFormed.insert {tree : IntervalTree} (h : tree.WellFormed) (entry : RangeLockEntry) :
    (tree.insert entry).WellFormed :=
  h.elim fun _ hbuilt => ⟨_, hbuilt.insert entry⟩

theorem entries_foldl_insert (tree : IntervalTree) (es : List RangeLockEntry) :
    (es.foldl insert tree).entries = tree.entries ++ es := by
  induction es generalizing tree with
  | nil => exact (List.append_nil _).symm
  | cons e es ih => rw [List.foldl_cons, ih, entries_insert, List.append_assoc]; rfl

/-- What a removal leaves is made by inserts only. -/
theorem removeByTxn_induct {P : IntervalTree → Prop} (hnew : P new)
    (hinsert : ∀ tree entry, P tree → P (tree.insert entry)) (tree : IntervalTree) (txnId : ℕ) :
    P (tree.removeByTxn txnId) := by
  unfold removeByTxn
  generalize tree.entries.filter (fun e => e.txnId != txnId) = es
  generalize new = tree' at hnew
  induction es generalizing tree' with
  | nil => exact hnew
  | cons e es ih => exact ih _ (hinsert tree' e hnew)

theorem wellFormed_removeByTxn (tree : IntervalTree) (txnId : ℕ) :
    (tree.removeByTxn txnId).WellFormed :=
  removeByTxn_induct wellFormed_new (fun _ entry h => h.insert entry) tree txnId

theorem entries_removeByTxn (tree : IntervalTree) (txnId : ℕ) :
    (tree.removeByTxn txnId).entries = tree.entries.filter fun e => e.txnId != txnId :=
  entries_foldl_insert new _

/-! ## What a search finds -/

theorem mem_entries_of_mem_find {nodes : List IntervalNode} {start last : Bound}
    {e : RangeLockEntry} {fuel idx : ℕ}
    (he : e ∈ findOverlappingRecursive nodes start last fuel idx) :
    e ∈ nodes.map IntervalNode.entry := by
  induction fuel generalizing idx with
  | zero => exact absurd he List.not_mem_nil
  | succ fuel ih =>
      rw [findOverlappingRecursive] at he
      split at he
      · exact absurd he List.not_mem_nil
      · next node hnode =>
          split at he
          · exact absurd he List.not_mem_nil
          · rw [List.mem_append, List.mem_append] at he
            rcases he with (hleft | hself) | hright
            · split at hleft
              · exact ih hleft
              · exact absurd hleft List.not_mem_nil
            · split at hself
              · rw [List.mem_singleton.mp hself]
                exact List.mem_map_of_mem (List.mem_of_getElem? hnode)
              · exact absurd hself List.not_mem_nil
            · split at hright
              · exact absurd hright List.not_mem_nil
              · split at hright
                · exact ih hright
                · exact absurd hright List.not_mem_nil

theorem find_of_represents (start last : Bound) {nodes : List IntervalNode} {idx : Option ℕ}
    {t : IntervalNodes RangeLockEntry Bytes} (h : Represents nodes idx t) {fuel : ℕ}
    (hfuel : t.indices.length ≤ fuel) :
    idx.elim [] (findOverlappingRecursive nodes start last fuel) =
      t.find (fun maxEnd => boundLessThan maxEnd start) (fun e => e.overlaps start last)
        (fun e => boundGreaterThan e.start last) := by
  induction h generalizing fuel with
  | none => rfl
  | @some i node left right hnode _ _ ihl ihr =>
      simp only [IntervalNodes.indices, List.length_cons, List.length_append] at hfuel
      obtain ⟨fuel, rfl⟩ : ∃ n, fuel = n + 1 := ⟨fuel - 1, by omega⟩
      have hfuell : left.indices.length ≤ fuel := by omega
      have hfuelr : right.indices.length ≤ fuel := by omega
      rw [Option.elim_some, findOverlappingRecursive, hnode, IntervalNodes.find, ← ihl hfuell,
        ← ihr hfuelr]
      dsimp only
      cases node.left <;> cases node.right <;> rfl

theorem boundLessThan_iff {maxEnd : Bytes} {start : Bound} :
    boundLessThan maxEnd start = true ↔ Cut.behind maxEnd ≤ start.startCut := by
  rw [← not_lt]
  cases start <;> simp [boundLessThan, Bound.startCut]

theorem boundLessThan_mono (start : Bound) {m m' : Bytes} (hle : m ≤ m')
    (hbefore : boundLessThan m' start = true) : boundLessThan m start = true := by
  rw [boundLessThan_iff] at hbefore ⊢
  exact (Cut.behind_strictMono.monotone hle).trans hbefore

theorem endCut_le_behind {last : Bound} (hbounded : last ≠ .unbounded) :
    last.endCut ≤ Cut.behind (boundToBytes last) := by
  cases last with
  | unbounded => contradiction
  | included key => exact le_rfl
  | excluded key => exact (Cut.before_lt_behind.mpr le_rfl).le

/-- What overlaps does not end before the search starts, if it has an end or the end it
is given is not before the search. -/
theorem not_ending_le {e : RangeLockEntry} {start last : Bound} {maxEnd : Bytes}
    (hoverlaps : e.overlaps start last = true)
    (hreach : e.last = .unbounded → boundLessThan unboundedEnd start = false)
    (hbefore : boundLessThan maxEnd start = true) : ¬ ending e ≤ maxEnd := by
  intro hle
  have hending : boundLessThan (ending e) start = true := boundLessThan_mono start hle hbefore
  by_cases hlast : e.last = .unbounded
  · have hgiven : ending e = unboundedEnd := by rw [ending, hlast, boundToBytes]
    rw [hgiven, hreach hlast] at hending
    contradiction
  · have hstops : e.last.endCut ≤ start.startCut :=
      (endCut_le_behind hlast).trans (boundLessThan_iff.mp hending)
    exact hstops.not_gt (RangeLockEntry.overlaps_iff.mp hoverlaps).1

theorem compareStarts_compares (a b : Bound) :
    (compareStarts a b).Compares a.startCut b.startCut := by
  cases a with
  | unbounded =>
      cases b with
      | unbounded => rfl
      | included b => exact Cut.bot_lt_before
      | excluded b => exact Cut.bot_lt_behind
  | included a =>
      cases b with
      | unbounded => exact Cut.bot_lt_before
      | included b =>
          rw [compareStarts, ← Cut.before_strictMono.cmp_map_eq]
          exact cmp_compares _ _
      | excluded b =>
          rw [compareStarts]
          split
          · next hle => exact Cut.before_lt_behind.mpr hle
          · next hgt => exact Cut.behind_lt_before.mpr (not_le.mp hgt)
  | excluded a =>
      cases b with
      | unbounded => exact Cut.bot_lt_behind
      | included b =>
          rw [compareStarts]
          split
          · next hlt => exact Cut.behind_lt_before.mpr hlt
          · next hge => exact Cut.before_lt_behind.mpr (not_lt.mp hge)
      | excluded b =>
          rw [compareStarts, ← Cut.behind_strictMono.cmp_map_eq]
          exact cmp_compares _ _

theorem less_iff {a b : RangeLockEntry} :
    less a b = true ↔ a.start.startCut < b.start.startCut := by
  rw [less, decide_eq_true_iff, (compareStarts_compares a.start b.start).eq_lt]

theorem endCut_le_of_boundGreaterThan {start last : Bound}
    (hgreater : boundGreaterThan start last = true) : last.endCut ≤ start.startCut := by
  rw [← not_lt]
  cases start <;> cases last <;>
    simp_all [boundGreaterThan, Bound.startCut, Bound.endCut, le_of_lt]

/-- What overlaps starts before everything that lies behind the search. -/
theorem less_of_behind {e e' : RangeLockEntry} {start last : Bound}
    (hoverlaps : e.overlaps start last = true)
    (hbehind : boundGreaterThan e'.start last = true) : less e e' = true := by
  have hbegins : e.start.startCut < last.endCut := (RangeLockEntry.overlaps_iff.mp hoverlaps).2
  exact less_iff.mpr (hbegins.trans_le (endCut_le_of_boundGreaterThan hbehind))

/-- A search finds every range that overlaps, unless the range has no end and the search
starts behind the end such a range is given. -/
theorem mem_findOverlapping {tree : IntervalTree} (h : tree.WellFormed) {start last : Bound}
    {e : RangeLockEntry} (he : e ∈ tree.entries) (hoverlaps : e.overlaps start last = true)
    (hreach : e.last = .unbounded → boundLessThan unboundedEnd start = false) :
    e ∈ tree.findOverlapping start last := by
  obtain ⟨t, hbuilt⟩ := h
  have hnonempty : ¬ tree.nodes.isEmpty = true := by
    intro hempty
    unfold entries at he
    rw [List.isEmpty_iff.mp hempty] at he
    exact absurd he List.not_mem_nil
  have hrep := hbuilt.represents
  rw [if_neg hnonempty] at hrep
  have hfind := find_of_represents start last hrep hbuilt.fuel
  unfold findOverlapping
  rw [show findOverlappingRecursive tree.nodes start last tree.nodes.length 0 = _ from hfind]
  exact IntervalNodes.mem_find hbuilt.ordered ((hbuilt.mem_entries e).mpr he) hoverlaps
    (fun _ => not_ending_le hoverlaps hreach) fun _ => less_of_behind hoverlaps

/-- The same for the ranges that contain a key. -/
theorem mem_findContainingKey {tree : IntervalTree} (h : tree.WellFormed) {key : Bytes}
    {e : RangeLockEntry} (he : e ∈ tree.entries) (hcontains : e.containsKey key = true)
    (hreach : e.last = .unbounded → ¬ unboundedEnd < key) :
    e ∈ tree.findContainingKey key := by
  have hself : inRange key (.included key, .included key) = true := by simp [inRange]
  exact mem_findOverlapping h he (RangeLockEntry.overlaps_of_inRange hcontains hself)
    fun hlast => decide_eq_false (hreach hlast)

/-- A key behind the end that a range without an end is given is not looked for in it. -/
example :
    (new.insert ⟨1, .x, .unbounded, .unbounded⟩).findContainingKey (unboundedEnd ++ [0]) = [] := by
  decide +kernel

end IntervalTree
end Crabstash

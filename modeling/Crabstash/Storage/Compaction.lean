import Crabstash.Storage.Lsm
import Crabstash.Storage.Merge

/-!
# Compaction

`compaction.rs`: which tables are merged into the next level, and the merge.

`pick_compaction` lists the inputs of a task in the order in which the manifest
has them, level by level.  `compact` takes the entries of all inputs in key
order; of the entries of one key the one from the input that comes *first* in
the task is written, since the merge takes the first of several least iterators,
and the others are dropped.  Reads go through a level the other way, from the
table added last to the one added first.
-/

namespace Crabstash

open Crabstash.Action StorageIterator

/-- The tables that one compaction merges, and the level that its output goes to. -/
structure CompactionTask where
  level : ℕ
  inputSsts : List ℕ
  outputLevel : ℕ
  deriving DecidableEq, Repr

/-! ## The merge -/

/-- `MergedIterator`. -/
structure MergedIterator (ι : Type) where
  iterators : List ι

namespace MergedIterator

variable {ι : Type} [StorageIterator ι]

/-- `is_valid`: one of the inputs has an entry left. -/
def isValid (it : MergedIterator ι) : Bool := it.iterators.any StorageIterator.isValid

/-- The key an iterator of the list stands on. -/
def keyAt (iterators : List ι) (idx : ℕ) : Key := (iterators[idx]?.map key).getD ⟨[], 0⟩

/-- The first of the valid iterators that stand on a least key. -/
def leastIdx : List ι → Option ℕ
  | [] => none
  | it :: rest =>
      match leastIdx rest with
      | none => if StorageIterator.isValid it then some 0 else none
      | some idx =>
          if StorageIterator.isValid it && (key it).cmp (keyAt rest idx) != .gt then some 0
          else some (idx + 1)

/-- The input whose entry is the next one of the merge. -/
def currentIdx (it : MergedIterator ι) : Option ℕ := leastIdx it.iterators

/-- `key` of the merge. -/
def currentKey (it : MergedIterator ι) : Key :=
  (it.currentIdx.map fun idx => keyAt it.iterators idx).getD ⟨[], 0⟩

/-- `value` of the merge. -/
def currentValue (it : MergedIterator ι) : Option Bytes :=
  it.currentIdx.bind fun idx => it.iterators[idx]?.bind value

/-- `next`: the input that had the current entry moves on. -/
def advance (it : MergedIterator ι) : Except Error (MergedIterator ι) :=
  match it.currentIdx with
  | none => .ok it
  | some idx =>
      match it.iterators[idx]?.map next with
      | none => .ok it
      | some (.error e, _) => .error e
      | some (.ok (), iter) => .ok { iterators := it.iterators.set idx iter }

/-- How many entries the inputs have left. -/
def remaining (it : MergedIterator ι) : ℕ := (it.iterators.map StorageIterator.remaining).sum

end MergedIterator

namespace Compactor

section Merge

variable {ι : Type} [StorageIterator ι]

/-- The loop of `compact`: an entry is added unless its key was the last one added. -/
def mergeLoop : ℕ → MergedIterator ι → Option Bytes → SSTableBuilder → Except Error SSTableBuilder
  | 0, _, _, builder => .ok builder
  | fuel + 1, merged, lastKey, builder =>
      if merged.isValid then
        let key := merged.currentKey
        let value := merged.currentValue
        let dominated := lastKey == some key.data
        let builder := if dominated then builder else builder.add key.data value
        let lastKey := if dominated then lastKey else some key.data
        match merged.advance with
        | .error e => .error e
        | .ok merged => mergeLoop fuel merged lastKey builder
      else .ok builder

end Merge
end Compactor

/-! ## Picking a task -/

/-- `Compactor`: its directory, and the manifest that the compaction thread has opened. -/
structure Compactor where
  dir : Dir
  manifest : Manifest

namespace Compactor

/-- `LEVEL0_COMPACTION_TRIGGER`. -/
def level0CompactionTrigger : ℕ := 4

/-- `LEVEL_SIZE_MULTIPLIER`. -/
def levelSizeMultiplier : ℕ := 10

/-- `BASE_LEVEL_SIZE`. -/
def baseLevelSize : ℕ := 10 * 1024 * 1024

/-- `ranges_overlap`. -/
def rangesOverlap (a b : SSTable) : Bool := !(a.maxKey < b.minKey || b.maxKey < a.minKey)

/-- The tables of the next level that are merged with the given one.  A table that
cannot be opened is left out. -/
def overlapping (c : Compactor) (inputId level : ℕ) : List ℕ :=
  match c.dir.ssts inputId with
  | none => []
  | some sst =>
      (c.manifest.levels (level + 1)).filter fun nextId =>
        match c.dir.ssts nextId with
        | none => false
        | some nextSst => rangesOverlap sst nextSst

/-- The body of the loop over the levels. -/
def pickLevel (c : Compactor) (level : ℕ) : Option CompactionTask :=
  match c.manifest.levels level with
  | [] => none
  | inputId :: rest =>
      let levelSize := (inputId :: rest).length * baseLevelSize
      let maxSize := baseLevelSize * levelSizeMultiplier ^ level
      if maxSize < levelSize then
        some { level, inputSsts := inputId :: c.overlapping inputId level, outputLevel := level + 1 }
      else none

/-- `pick_compaction`: level 0 once it has four tables, with all of level 1; else the first
level that is too large. -/
def pickCompaction (c : Compactor) : Option CompactionTask :=
  if level0CompactionTrigger ≤ (c.manifest.levels 0).length then
    some { level := 0, inputSsts := c.manifest.levels 0 ++ c.manifest.levels 1, outputLevel := 1 }
  else (List.range' 1 5).findSome? c.pickLevel

/-! ## Compacting -/

/-- The tables with these numbers, if all of them can be opened. -/
def openAll (c : Compactor) : List ℕ → Except Error (List SSTable)
  | [] => .ok []
  | id :: rest =>
      match c.dir.ssts id with
      | none => .error .io
      | some sst => (c.openAll rest).map (sst :: ·)

/-- The table written for these inputs. -/
def mergeTables (newSstId : ℕ) (ssts : List SSTable) : Except Error SSTable :=
  let merged : MergedIterator SSTableIterator := { iterators := ssts.map SSTableIterator.new }
  let builder := SSTableBuilder.new newSstId (ssts.length * 1000)
  (mergeLoop merged.remaining merged none builder).map SSTableBuilder.finish

/-- A line at the end of the manifest, if there is a file. -/
def logLine (c : Compactor) (line : ManifestLine) : Compactor :=
  { c with dir := { c.dir with manifest := c.dir.manifest.map (· ++ [line]) } }

section Faulty

variable (faults : Faults IoCall)

/-- `manifest.remove_sst(level, id)?`. -/
def removeSst (level id : ℕ) : Action Compactor Unit := do
  attempt faults .removeSstWrite
  modify fun c => c.logLine (.del level id)
  attempt faults .removeSstSync
  modify fun c => { c with manifest := c.manifest.applyLine (.del level id) }

/-- `manifest.add_sst(level, id)?`. -/
def addSst (level id : ℕ) : Action Compactor Unit := do
  attempt faults .addSstWrite
  modify fun c => c.logLine (.sst level id)
  attempt faults .addSstSync
  modify fun c => { c with manifest := c.manifest.applyLine (.sst level id) }

/-- The loop over the inputs: out of the manifest, and the file deleted. -/
def removeInputs (task : CompactionTask) : List ℕ → Action Compactor Unit
  | [] => pure ()
  | id :: rest => do
      let c ← MonadState.get
      let level := if id ∈ c.manifest.levels task.level then task.level else task.outputLevel
      removeSst faults level id
      modify fun c => { c with dir := { c.dir with ssts := Function.update c.dir.ssts id none } }
      removeInputs task rest

/-- `compact`: the number of the new table, or an error at the call that fails. -/
def compact (task : CompactionTask) : Action Compactor (List ℕ) :=
  if task.inputSsts.isEmpty then pure []
  else do
    let c ← MonadState.get
    attempt faults .sstOpen
    let ssts ← MonadExcept.ofExcept (c.openAll task.inputSsts)
    let newSstId ← modifyGet fun c =>
      ((c.manifest.allocateSstId).1, { c with manifest := (c.manifest.allocateSstId).2 })
    attempt faults .sstBuild
    let sst ← MonadExcept.ofExcept (mergeTables newSstId ssts)
    modify fun c =>
      { c with dir := { c.dir with ssts := Function.update c.dir.ssts newSstId (some sst) } }
    -- the inputs go before the new table is listed
    removeInputs faults task task.inputSsts
    addSst faults task.outputLevel newSstId
    pure [newSstId]

end Faulty
end Compactor

/-! ## What the merge writes -/

namespace MergedIterator

variable {ι : Type} [StorageIterator ι] {iters : List ι} {left : Left}

/-- Each iterator of the list yields what is left of the input with its index. -/
structure Stands (iters : List ι) (left : Left) : Prop where
  yields : ∀ i it, iters[i]? = some it → Yields it (left i)
  beyond : ∀ i, iters.length ≤ i → left i = []

theorem Stands.tail {it : ι} {rest : List ι} (h : Stands (it :: rest) left) :
    Stands rest fun i => left (i + 1) where
  yields := fun i it' hit => h.yields (i + 1) it' hit
  beyond := fun i hi => h.beyond (i + 1) (Nat.succ_le_succ hi)

theorem Stands.set (h : Stands iters left) {idx : ℕ} {it : ι} {items : List Item}
    (hidx : idx < iters.length) (hit : Yields it items) :
    Stands (iters.set idx it) (Function.update left idx items) where
  yields := by
    intro i it' hit'
    rw [List.getElem?_set] at hit'
    split at hit'
    · next heq =>
        obtain rfl : it = it' := by simpa [hidx] using hit'
        rw [← heq, Function.update_self]
        exact hit
    · next hne =>
        rw [Function.update_of_ne (Ne.symm hne)]
        exact h.yields i it' hit'
  beyond := by
    intro i hi
    rw [List.length_set] at hi
    rw [Function.update_of_ne (by omega)]
    exact h.beyond i hi

/-- An input with something left has a valid iterator, standing on its first item. -/
theorem Stands.exists_iterator (h : Stands iters left) {idx : ℕ} {item : Item} {rest : List Item}
    (hleft : left idx = item :: rest) :
    ∃ it, iters[idx]? = some it ∧ Yields it (item :: rest) := by
  have hidx : idx < iters.length := by
    by_contra hge
    rw [h.beyond idx (not_lt.mp hge)] at hleft
    contradiction
  have hit := h.yields idx _ (List.getElem?_eq_getElem hidx)
  rw [hleft] at hit
  exact ⟨_, List.getElem?_eq_getElem hidx, hit⟩

theorem Stands.keyAt_eq (h : Stands iters left) {idx : ℕ} {item : Item} {rest : List Item}
    (hleft : left idx = item :: rest) : keyAt iters idx = item.1 := by
  obtain ⟨it, hget, hit⟩ := h.exists_iterator hleft
  rw [keyAt, hget, Option.map_some, Option.getD_some, hit.key_eq]

theorem isSome_leastIdx (iters : List ι) :
    (leastIdx iters).isSome = iters.any StorageIterator.isValid := by
  induction iters with
  | nil => rfl
  | cons it rest ih =>
      rw [leastIdx, List.any_cons, ← ih]
      cases hleast : leastIdx rest with
      | none => cases StorageIterator.isValid it <;> rfl
      | some idx =>
          simp only [Option.isSome_some, Bool.or_true]
          split <;> rfl

theorem Stands.eq_nil (h : Stands iters left) (hnone : leastIdx iters = none) (i : ℕ) :
    left i = [] := by
  by_contra hne
  obtain ⟨item, rest, hleft⟩ := List.exists_cons_of_ne_nil hne
  obtain ⟨it, hget, hit⟩ := h.exists_iterator hleft
  have hvalid : iters.any StorageIterator.isValid = true := by
    rw [List.any_eq_true]
    exact ⟨it, List.mem_of_getElem? hget, by rw [hit.isValid_eq]; rfl⟩
  rw [← isSome_leastIdx, hnone] at hvalid
  contradiction

/-- An item that comes before the first items of all inputs: by its key, or with the
same key by the index of its input. -/
def Least (left : Left) (idx : ℕ) (item : Item) : Prop :=
  ∀ j other tail, left j = other :: tail → item.1 < other.1 ∨ item.1 = other.1 ∧ idx ≤ j

theorem Least.zero {item : Item} {rest : List Item} (hleft : left 0 = item :: rest)
    (hle : ∀ j other tail, left (j + 1) = other :: tail → item.1 ≤ other.1) : Least left 0 item := by
  intro j other tail hj
  cases j with
  | zero =>
      obtain ⟨rfl, _⟩ := List.cons.inj (hleft.symm.trans hj)
      exact Or.inr ⟨rfl, le_rfl⟩
  | succ j =>
      rcases (hle j other tail hj).lt_or_eq with hlt | heq
      · exact Or.inl hlt
      · exact Or.inr ⟨heq, Nat.zero_le _⟩

theorem Least.succ {idx : ℕ} {item : Item} (htail : Least (fun i => left (i + 1)) idx item)
    (hlt : ∀ other tail, left 0 = other :: tail → item.1 < other.1) : Least left (idx + 1) item := by
  intro j other tail hj
  cases j with
  | zero => exact Or.inl (hlt other tail hj)
  | succ j =>
      rcases htail j other tail hj with hlt | ⟨heq, hle⟩
      · exact Or.inl hlt
      · exact Or.inr ⟨heq, Nat.succ_le_succ hle⟩

theorem Least.le {idx : ℕ} {item : Item} (h : Least left idx item) {j : ℕ} {other : Item}
    {tail : List Item} (hj : left j = other :: tail) : item.1 ≤ other.1 := by
  rcases h j other tail hj with hlt | ⟨heq, _⟩
  · exact hlt.le
  · exact heq.le

theorem Least.le_of_mem (hsorted : ∀ i, Sorted (left i)) {idx : ℕ} {item : Item}
    (h : Least left idx item) {i : ℕ} {other : Item} (hother : other ∈ left i) :
    item.1 ≤ other.1 := by
  cases hi : left i with
  | nil =>
      rw [hi] at hother
      exact absurd hother List.not_mem_nil
  | cons first tail =>
      have hfirst : item.1 ≤ first.1 := h.le hi
      have htail := List.pairwise_cons.mp (hi ▸ hsorted i)
      rw [hi] at hother
      rcases List.mem_cons.mp hother with rfl | hother
      · exact hfirst
      · exact hfirst.trans (htail.1 other hother)

/-- The iterator that is taken stands on the least item. -/
theorem Stands.leastIdx_spec (h : Stands iters left) {idx : ℕ} (hleast : leastIdx iters = some idx) :
    ∃ item rest, left idx = item :: rest ∧ Least left idx item := by
  induction iters generalizing left idx with
  | nil => contradiction
  | cons it iters ih =>
      have hit := h.yields 0 it rfl
      rw [leastIdx] at hleast
      cases htail : leastIdx iters with
      | none =>
          rw [htail, hit.isValid_eq] at hleast
          cases hleft : left 0 with
          | nil =>
              rw [hleft] at hleast
              contradiction
          | cons item rest =>
              rw [hleft] at hleast
              obtain rfl : 0 = idx := Option.some.inj hleast
              refine ⟨item, rest, hleft, Least.zero hleft ?_⟩
              intro j other tail hj
              -- the other iterators are at their end
              have hnil : left (j + 1) = [] := h.tail.eq_nil htail j
              rw [hnil] at hj
              contradiction
      | some idx' =>
          obtain ⟨item', rest', hleft', hbest⟩ := ih h.tail htail
          have hkey : keyAt iters idx' = item'.1 := h.tail.keyAt_eq hleft'
          rw [htail] at hleast
          cases hleft : left 0 with
          | nil =>
              simp only [hit.isValid_eq, hleft, List.isEmpty_nil, Bool.not_true, Bool.false_and,
                Bool.false_eq_true, if_false] at hleast
              obtain rfl : idx' + 1 = idx := Option.some.inj hleast
              refine ⟨item', rest', hleft', hbest.succ ?_⟩
              intro other tail hzero
              rw [hleft] at hzero
              contradiction
          | cons item rest =>
              rw [hleft] at hit
              simp only [hit.isValid_eq, List.isEmpty_cons, Bool.not_false, Bool.true_and, hkey,
                hit.key_eq, TwoMergeIterator.cmp_ne_gt_iff] at hleast
              split at hleast
              · next hle =>
                  -- on a tie the earlier iterator is taken
                  obtain rfl : 0 = idx := Option.some.inj hleast
                  refine ⟨item, rest, hleft, Least.zero hleft ?_⟩
                  intro j other tail hj
                  exact hle.trans (hbest.le hj)
              · next hgt =>
                  obtain rfl : idx' + 1 = idx := Option.some.inj hleast
                  refine ⟨item', rest', hleft', hbest.succ ?_⟩
                  intro other tail hzero
                  obtain ⟨rfl, _⟩ := List.cons.inj (hleft.symm.trans hzero)
                  exact not_le.mp hgt

/-- One step of the merge. -/
theorem Stands.step (h : Stands iters left) {idx : ℕ} (hleast : leastIdx iters = some idx) :
    ∃ item rest iters', left idx = item :: rest ∧ Least left idx item ∧
      currentKey ⟨iters⟩ = item.1 ∧ currentValue ⟨iters⟩ = item.2 ∧
      advance ⟨iters⟩ = .ok ⟨iters'⟩ ∧ iters'.length = iters.length ∧
      Stands iters' (Function.update left idx rest) := by
  obtain ⟨item, rest, hleft, hbest⟩ := h.leastIdx_spec hleast
  obtain ⟨it, hget, hit⟩ := h.exists_iterator hleft
  obtain ⟨it', hnext, hit'⟩ := hit.next_eq
  have hidx : idx < iters.length := (List.getElem?_eq_some_iff.mp hget).1
  have hcurrent : currentIdx ⟨iters⟩ = some idx := hleast
  refine ⟨item, rest, iters.set idx it', hleft, hbest, ?_, ?_, ?_, List.length_set, h.set hidx hit'⟩
  · rw [currentKey, hcurrent]
    exact h.keyAt_eq hleft
  · rw [currentValue, hcurrent, Option.bind_some, hget]
    exact hit.value_eq
  · rw [advance, hcurrent]
    simp only [hget, Option.map_some, hnext]

theorem Stands.covers (h : Stands iters left) : Left.Covers (List.range iters.length) left := by
  intro i hi
  rw [List.mem_range]
  by_contra hge
  exact hi (h.beyond i (not_lt.mp hge))

theorem Stands.load_le (h : Stands iters left) :
    Left.load (List.range iters.length) left ≤ (iters.map StorageIterator.remaining).sum := by
  induction iters generalizing left with
  | nil => exact le_rfl
  | cons it rest ih =>
      have hhead := (h.yields 0 it rfl).length_le
      have htail : Left.load ((List.range rest.length).map Nat.succ) left ≤
          (rest.map StorageIterator.remaining).sum := by
        have hload := ih h.tail
        unfold Left.load at hload ⊢
        rw [List.map_map]
        exact hload
      rw [List.length_cons, List.range_succ_eq_map, List.map_cons, List.sum_cons]
      unfold Left.load at htail ⊢
      rw [List.map_cons, List.sum_cons]
      omega

end MergedIterator

namespace Compactor

open MergedIterator

variable {ι : Type} [StorageIterator ι]

/-- What is left to be written when `lastKey` was the last key added. -/
def afterKey (lastKey : Option Bytes) (left : Left) : Left :=
  match lastKey with
  | none => left
  | some data => fun i => dropKey data (left i)

/-- When every key is above the last one added, nothing of what is left is dropped. -/
theorem afterKey_eq_self {lastKey : Option Bytes} {left : Left}
    (habove : ∀ data ∈ lastKey, ∀ i, ∀ item ∈ left i, data < item.1.data) :
    afterKey lastKey left = left := by
  cases lastKey with
  | none => rfl
  | some data =>
      funext i
      show dropKey data (left i) = left i
      cases hleft : left i with
      | nil => rfl
      | cons item rest =>
          have hlt : data < item.1.data := by
            apply habove data rfl i
            rw [hleft]
            exact List.mem_cons_self ..
          rw [dropKey_cons, if_neg hlt.ne']

theorem merged_afterKey_nil {left : Left} (hnil : ∀ i, left i = []) (lastKey : Option Bytes) :
    Merged (· ≤ ·) (afterKey lastKey left) [] := by
  rw [afterKey_eq_self]
  · exact Merged.nil hnil
  · intro data _ i item hitem
    rw [hnil i] at hitem
    exact absurd hitem List.not_mem_nil

/-- Taking the first item with the last key added from an input changes nothing. -/
theorem afterKey_update {left : Left} {idx : ℕ} {item : Item} {rest : List Item}
    (hleft : left idx = item :: rest) :
    afterKey (some item.1.data) (Function.update left idx rest) =
      fun i => dropKey item.1.data (left i) := by
  funext i
  show dropKey item.1.data (Function.update left idx rest i) = _
  by_cases hi : i = idx
  · rw [hi, Function.update_self, hleft, dropKey_cons, if_pos rfl]
  · rw [Function.update_of_ne hi]

/-- The loop adds the merge of what is left, without the last key added. -/
theorem mergeLoop_spec (fuel : ℕ) {iters : List ι} {left : Left} (hstands : Stands iters left)
    (hsorted : ∀ i, Sorted (left i)) (hfuel : Left.load (List.range iters.length) left ≤ fuel)
    (lastKey : Option Bytes) (hlow : ∀ data ∈ lastKey, ∀ i, ∀ item ∈ left i, data ≤ item.1.data)
    (builder : SSTableBuilder) :
    ∃ out, Merged (· ≤ ·) (afterKey lastKey left) out ∧
      mergeLoop fuel ⟨iters⟩ lastKey builder =
        .ok (out.foldl (fun b item => b.add item.1.data item.2) builder) := by
  induction fuel generalizing iters left lastKey builder with
  | zero =>
      have hnil := Left.eq_nil_of_load_eq_zero hstands.covers (Nat.le_zero.mp hfuel)
      exact ⟨[], merged_afterKey_nil hnil lastKey, rfl⟩
  | succ fuel ih =>
      have hvalid : MergedIterator.isValid ⟨iters⟩ = (leastIdx iters).isSome :=
        (isSome_leastIdx iters).symm
      cases hleast : leastIdx iters with
      | none =>
          refine ⟨[], merged_afterKey_nil (hstands.eq_nil hleast) lastKey, ?_⟩
          rw [mergeLoop, hvalid, hleast]
          rfl
      | some idx =>
          obtain ⟨item, rest, iters', hleft, hbest, hkey, hvalue, hadvance, hlength, hstands'⟩ :=
            hstands.step hleast
          -- the step takes `item` from its input
          have hsub : ∀ i, (Function.update left idx rest i).Sublist (left i) := by
            intro i
            by_cases hi : i = idx
            · rw [hi, Function.update_self, hleft]
              exact List.sublist_cons_self ..
            · rw [Function.update_of_ne hi]
          have hsorted' : ∀ i, Sorted (Function.update left idx rest i) := fun i =>
            (hsorted i).sublist (hsub i)
          have hfuel' : Left.load (List.range iters'.length) (Function.update left idx rest) ≤
              fuel := by
            have hless : Left.load (List.range iters.length) (Function.update left idx rest) <
                Left.load (List.range iters.length) left := by
              apply Left.load_lt (fun i => (hsub i).length_le) (hstands.covers idx _)
              · rw [Function.update_self, hleft]
                exact Nat.lt_succ_self _
              · rw [hleft]
                exact List.cons_ne_nil _ _
            rw [hlength]
            omega
          have hstep : mergeLoop (fuel + 1) ⟨iters⟩ lastKey builder =
              if lastKey = some item.1.data then mergeLoop fuel ⟨iters'⟩ lastKey builder
              else mergeLoop fuel ⟨iters'⟩ (some item.1.data)
                (builder.add item.1.data item.2) := by
            rw [mergeLoop, hvalid, hleast]
            simp only [Option.isSome_some, if_true, hkey, hvalue, hadvance, beq_iff_eq]
            split <;> rfl
          rw [hstep]
          split
          · next hdominated =>
              -- the key was the last one added: an older version, which is left out
              subst hdominated
              obtain ⟨out, hmerged, hloop⟩ := ih hstands' hsorted' hfuel' (some item.1.data)
                (fun data hdata i other hother => hlow data hdata i other ((hsub i).mem hother))
                builder
              rw [afterKey_update hleft] at hmerged
              exact ⟨out, hmerged, hloop⟩
          · next hnew =>
              -- a new key, and the least of all that is left
              have hle : ∀ i, ∀ other ∈ left i, item.1.data ≤ other.1.data := fun i other hother =>
                Key.data_le_of_le (hbest.le_of_mem hsorted hother)
              obtain ⟨out, hmerged, hloop⟩ := ih hstands' hsorted' hfuel' (some item.1.data)
                (fun data hdata i other hother => by
                  obtain rfl := Option.some.inj hdata
                  exact hle i other ((hsub i).mem hother))
                (builder.add item.1.data item.2)
              rw [afterKey_update hleft] at hmerged
              refine ⟨item :: out, ?_, hloop⟩
              rw [afterKey_eq_self]
              · exact Merged.cons hsorted hleft hbest hmerged
              · intro data hdata i other hother
                have hitem : item ∈ left idx := hleft ▸ List.mem_cons_self ..
                have hne : data ≠ item.1.data := fun heq => hnew (heq ▸ hdata)
                have hlt := lt_of_le_of_ne (hlow data hdata idx item hitem) hne
                exact hlt.trans_le (hle i other hother)

/-- New iterators over tables stand on their entries. -/
theorem stands_new {ssts : List SSTable} (hsound : ∀ t ∈ ssts, t.Sound) :
    Stands (ssts.map SSTableIterator.new) (inputs (ssts.map SSTableIterator.items)) where
  yields := by
    intro i it hget
    rw [List.getElem?_map, Option.map_eq_some_iff] at hget
    obtain ⟨t, ht, rfl⟩ := hget
    have hinput : inputs (ssts.map SSTableIterator.items) i = SSTableIterator.items t := by
      simp [inputs, ht]
    rw [hinput]
    exact SSTableIterator.yields_new (hsound t (List.mem_of_getElem? ht)).holds
  beyond := by
    intro i hi
    apply inputs_of_le
    simpa using hi

/-- The table written for some inputs has their merge. -/
theorem mergeTables_eq (newSstId : ℕ) {ssts : List SSTable} (hsound : ∀ t ∈ ssts, t.Sound) :
    ∃ out, Merged (· ≤ ·) (inputs (ssts.map SSTableIterator.items)) out ∧
      mergeTables newSstId ssts = .ok (SSTableBuilder.build newSstId (ssts.length * 1000)
        (out.map fun item => (item.1.data, item.2))) := by
  have hstands := stands_new hsound
  have hsorted : ∀ i, Sorted (inputs (ssts.map SSTableIterator.items) i) := by
    apply inputs_sorted
    intro items hitems
    obtain ⟨t, ht, rfl⟩ := List.mem_map.mp hitems
    exact SSTableIterator.sorted_items (hsound t ht)
  obtain ⟨out, hmerged, hloop⟩ := mergeLoop_spec _ hstands hsorted hstands.load_le
    none (fun data hdata => absurd hdata (Option.not_mem_none data))
    (SSTableBuilder.new newSstId (ssts.length * 1000))
  refine ⟨out, hmerged, ?_⟩
  have hloop' : mergeLoop (MergedIterator.remaining ⟨ssts.map SSTableIterator.new⟩)
      ⟨ssts.map SSTableIterator.new⟩ none (SSTableBuilder.new newSstId (ssts.length * 1000)) = _ :=
    hloop
  rw [mergeTables, hloop', SSTableBuilder.build, List.foldl_map]
  rfl

end Compactor
end Crabstash

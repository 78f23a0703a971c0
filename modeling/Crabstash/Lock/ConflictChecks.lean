import Crabstash.Lock.RangeQueries
import Crabstash.Lock.ReleaseAll

/-!
# Conflicts that are announced

`check_conflict` and `check_range_conflict` say whether a lock on a key is in the way of another
transaction, without taking one.  What they are for is to know what `lock_key` will do.

If nobody interferes they do say it (`Foretold`): `lock_key` returns `RangeConflict` if the range
check says so, `Ok` if no check says anything, and otherwise waits until its deadline.  There is
one exception, which neither check looks at: a transaction that holds a mode from which there is
no way to the one it wants is granted at once, and keeps the mode it had.

A call that is granted goes on to record the lock, and may take a range lock of the escalation in
doing so, with an iteration over the key locks; whatever comes of that is thrown away.  And no
call, interfered with or not, touches what belongs to other transactions (`spares_call`).
-/

namespace Crabstash

/-! ## The checks -/

namespace LockTable

/-- The first half of `check_conflict`. -/
def checkHolders (t : LockTable) (txnId : ℕ) (key : Bytes) (mode : LockMode) : Bool :=
  match t.keyLocks.lookup key with
  | some entry => entry.getHolders.any fun (holderId, heldMode) =>
      holderId != txnId && !mode.isCompatible heldMode
  | none => false

/-- `check_range_conflict`: a range lock of somebody else covers the key. -/
def checkRangeConflict (t : LockTable) (txnId : ℕ) (key : Bytes) (mode : LockMode) : Bool :=
  if !t.config.enableRangeLocks then false
  else (t.rangeLocks.findContainingKey key).any fun e =>
    e.txnId != txnId && !mode.isCompatible e.mode

/-- `check_conflict`: the holders of the key first, then the ranges. -/
def checkConflict (t : LockTable) (txnId : ℕ) (key : Bytes) (mode : LockMode) : Bool :=
  t.checkHolders txnId key mode || t.checkRangeConflict txnId key mode

section

variable {t : LockTable} {txnId : ℕ} {key : Bytes} {mode : LockMode}

/-- The check is the test of `try_acquire` on the entry. -/
theorem checkHolders_eq :
    t.checkHolders txnId key mode = !(t.entry key).isCompatibleWithHolders txnId mode := by
  unfold checkHolders entry LockEntry.isCompatibleWithHolders
  cases t.keyLocks.lookup key with
  | none => rfl
  | some e =>
      simp [LockEntry.getHolders, List.any_map, List.not_all_eq_any_not, Function.comp_def, bne]

/-- And the one of the range locks is the first step of `lock_key`. -/
theorem checkRangeConflict_eq :
    t.checkRangeConflict txnId key mode =
      (t.config.enableRangeLocks && !t.keyFree txnId key mode) := by
  unfold checkRangeConflict keyFree
  cases t.config.enableRangeLocks with
  | false => rfl
  | true => simp [List.not_all_eq_any_not, bne]

/-- Somebody else holds a mode on the key that the mode does not go with: in the entry of the
key, or, where there are range locks, in a range. -/
def Conflicts (t : LockTable) (txnId : ℕ) (key : Bytes) (mode : LockMode) : Prop :=
  ∃ other mode', other ≠ txnId ∧ mode.isCompatible mode' = false ∧
    (t.modeOf key other = some mode' ∨ t.config.enableRangeLocks = true ∧
      ∃ e ∈ t.rangeLocks.entries, e.txnId = other ∧ e.mode = mode' ∧ e.containsKey key = true)

theorem checkHolders_iff : t.checkHolders txnId key mode = true ↔
    ∃ other mode', other ≠ txnId ∧ mode.isCompatible mode' = false ∧
      t.modeOf key other = some mode' := by
  rw [checkHolders_eq, Bool.not_eq_true', ← Bool.not_eq_true, LockEntry.isCompatibleWithHolders_iff]
  push Not
  constructor
  · rintro ⟨other, mode', hmode, hne, hincompatible⟩
    exact ⟨other, mode', hne, by simpa using hincompatible, hmode⟩
  · rintro ⟨other, mode', hne, hincompatible, hmode⟩
    exact ⟨other, mode', hmode, hne, by simp [hincompatible]⟩

theorem of_mem_findContainingKey {tree : IntervalTree} (h : tree.WellFormed) {e : RangeLockEntry}
    (he : e ∈ tree.findContainingKey key) : e ∈ tree.entries ∧ e.containsKey key = true := by
  obtain ⟨nodes, hbuilt⟩ := h
  rw [IntervalTree.findContainingKey, IntervalTree.findOverlapping_eq_find hbuilt] at he
  have hfound := (IntervalNodes.find_sublist _ _ _ nodes).subset he
  rw [List.mem_filter, IntervalTree.overlaps_key] at hfound
  exact ⟨(hbuilt.mem_entries e).mp hfound.1, hfound.2⟩

/-- A conflict that is announced is one. -/
theorem conflicts_of_checkConflict (hranges : t.rangeLocks.WellFormed)
    (h : t.checkConflict txnId key mode = true) :
    t.Conflicts txnId key mode := by
  rw [checkConflict, Bool.or_eq_true] at h
  rcases h with hholders | hrange
  · obtain ⟨other, mode', hne, hincompatible, hmode⟩ := checkHolders_iff.mp hholders
    exact ⟨other, mode', hne, hincompatible, Or.inl hmode⟩
  · unfold checkRangeConflict at hrange
    split at hrange
    · contradiction
    · next henabled =>
        obtain ⟨e, hfound, hconflict⟩ := List.any_eq_true.mp hrange
        obtain ⟨he, hcontains⟩ := of_mem_findContainingKey hranges hfound
        refine ⟨e.txnId, e.mode, ?_⟩
        simp only [Bool.and_eq_true, bne_iff_ne, Bool.not_eq_true'] at hconflict
        exact ⟨hconflict.1, hconflict.2,
          Or.inr ⟨by simpa using henabled, e, he, rfl, rfl, hcontains⟩⟩

/-- A conflict is announced, if the key is not behind the end that a range without an end is
given in the tree. -/
theorem checkConflict_of_conflicts (hranges : t.rangeLocks.WellFormed)
    (hkey : ¬ IntervalTree.unboundedEnd < key) (h : t.Conflicts txnId key mode) :
    t.checkConflict txnId key mode = true := by
  obtain ⟨other, mode', hne, hincompatible, hmode | ⟨henabled, e, he, rfl, rfl, hcontains⟩⟩ := h
  · rw [checkConflict, checkHolders_iff.mpr ⟨other, mode', hne, hincompatible, hmode⟩, Bool.true_or]
  · have hfound := IntervalTree.mem_findContainingKey hranges he hcontains fun _ => hkey
    have hrange : t.checkRangeConflict txnId key mode = true := by
      unfold checkRangeConflict
      rw [henabled]
      apply List.any_eq_true.mpr
      exact ⟨e, hfound, by simp [hne, hincompatible]⟩
    rw [checkConflict, hrange, Bool.or_true]

end

end LockTable

/-! ## What a call leaves alone -/

namespace WaitForGraph

theorem hasEdge_addWaitEdges_other {g : WaitForGraph} {waiter waiter' holder : ℕ}
    (hne : waiter ≠ waiter') (holders : List ℕ) :
    (holders.foldl (fun g holder => g.addWaitEdge waiter' holder) g).HasEdge waiter holder ↔
      g.HasEdge waiter holder := by
  induction holders generalizing g with
  | nil => exact Iff.rfl
  | cons holder' rest ih =>
      rw [List.foldl_cons, ih, hasEdge_addWaitEdge]
      exact or_iff_left fun hnew => hne hnew.2.1

theorem hasEdge_incrementLockCount {g : WaitForGraph} {waiter holder : ℕ} (txnId : ℕ) :
    (g.incrementLockCount txnId).HasEdge waiter holder ↔ g.HasEdge waiter holder := by
  unfold WaitForGraph.incrementLockCount
  split <;> exact Iff.rfl

end WaitForGraph

namespace LockTable

section

variable (t : LockTable) (txnId : ℕ) (choice : LockChoice) (call : LockCall)

theorem ranges_call :
    ((t.step txnId choice call).1.rangeLocks.entries.filter fun e => e.txnId != txnId) =
      t.rangeLocks.entries.filter fun e => e.txnId != txnId := by
  have hsound := t.sound_effect txnId choice call
  rw [rangeLocks_step]
  cases heffect : t.effect txnId choice call with
  | insertRange e =>
      rw [heffect] at hsound
      have htxn : e.txnId = txnId := hsound
      rw [rangesAfter, IntervalTree.entries_insert, List.filter_append]
      simp [htxn]
  | removeRanges =>
      rw [rangesAfter, IntervalTree.entries_removeByTxn, List.filter_filter]
      simp only [Bool.and_self]
  | _ => rfl

theorem hasEdge_call {waiter holder : ℕ} (hwaiter : waiter ≠ txnId) (hholder : holder ≠ txnId) :
    (t.step txnId choice call).1.waiterGraph.HasEdge waiter holder ↔
      t.waiterGraph.HasEdge waiter holder := by
  rw [waiterGraph_step]
  cases call with
  | keyEdges key mode holders => exact WaitForGraph.hasEdge_addWaitEdges_other hwaiter holders
  | keyUnwait key holders result =>
      rw [graphAfter, WaitForGraph.hasEdge_removeWaitEdges]
      exact and_iff_left fun hown => hwaiter hown.1
  | keyCount => exact WaitForGraph.hasEdge_incrementLockCount txnId
  | releaseWaits =>
      rw [graphAfter, WaitForGraph.hasEdge_removeAllWaits]
      exact and_iff_left hwaiter
  | unregisterGraph =>
      rw [graphAfter, WaitForGraph.hasEdge_unregisterTxn]
      exact and_iff_left (not_or.mpr ⟨hwaiter, hholder⟩)
  | _ => exact Iff.rfl

/-- No step of a call touches what belongs to other transactions. -/
theorem spares_call : Spares txnId t (t.step txnId choice call).1 where
  modes := fun key _ hne => modeOf_other hne key
  ranges := List.Perm.of_eq (t.ranges_call txnId choice call)
  edges := fun _ _ hwaiter hholder => t.hasEdge_call txnId choice call hwaiter hholder

theorem spares_runCall (choices : List LockChoice) :
    Spares txnId t (t.runCall txnId call choices).1 := by
  induction choices generalizing t call with
  | nil => exact Spares.refl txnId t
  | cons choice rest ih => exact (t.spares_call txnId choice call).trans (ih _ _)

end

/-! ## The record of a lock -/

end LockTable

/-- The lock on a key has been granted and is being recorded. -/
def LockCall.Recording : LockCall → Prop
  | .keyRecord _ | .keyEscalate | .keyCount => True
  | .rangeCheck _ _ _ escalating | .rangeIter _ _ _ escalating
  | .rangeScan _ _ _ escalating _ | .rangeInsert _ _ _ escalating => escalating = true
  | _ => False

namespace LockTable

section

variable (t : LockTable) (txnId : ℕ) (choice : LockChoice) {call : LockCall}

theorem recording_step (h : call.Recording) :
    (t.step txnId choice call).2.Recording ∨ (t.step txnId choice call).2 = .done (.ok ()) := by
  cases call with
  | keyRecord key =>
      rw [step]
      split <;> exact Or.inl trivial
  | keyEscalate =>
      rw [step]
      split
      · exact Or.inl trivial
      · simp only
        split
        · exact Or.inl rfl
        · exact Or.inl trivial
  | keyCount => exact Or.inr rfl
  | rangeCheck start last mode escalating =>
      obtain rfl : escalating = true := h
      rw [step]
      split
      · exact Or.inl trivial
      · split
        · exact Or.inl trivial
        · exact Or.inl rfl
  | rangeIter start last mode escalating => exact Or.inl h
  | rangeScan start last mode escalating todo =>
      obtain rfl : escalating = true := h
      cases choice <;> simp only [step] <;> split
      all_goals first | exact Or.inl rfl | exact Or.inl trivial
  | rangeInsert start last mode escalating =>
      obtain rfl : escalating = true := h
      exact Or.inl trivial
  | _ => exact h.elim

theorem effect_recording (h : call.Recording) :
    (∀ key mode, t.effect txnId choice call ≠ .grant key mode) ∧
      ∀ key, t.effect txnId choice call ≠ .release key := by
  cases call with
  | keyTry key mode => exact h.elim
  | keyAcquire key mode holders => exact h.elim
  | keyWait key mode holders => exact h.elim
  | upgradeWait key => exact h.elim
  | releaseKeys todo => exact h.elim
  | _ => exact ⟨fun _ _ => LockEffect.noConfusion, fun _ => LockEffect.noConfusion⟩

end

/-! ## A lock on a key without interference -/

/-- What the checks say that `lock_key` comes to; a mode that is kept is no conflict. -/
def foretold (t : LockTable) (txnId : ℕ) (key : Bytes) (mode : LockMode) :
    Except LockError Unit :=
  if t.checkRangeConflict txnId key mode then .error .rangeConflict
  else if t.checkConflict txnId key mode && !(t.entry key).keeps txnId mode then .error .timeout
  else .ok ()

/-- The mode of the transaction after a lock that is granted. -/
def grantedMode (t : LockTable) (txnId : ℕ) (key : Bytes) (mode : LockMode) : Option LockMode :=
  if (t.entry key).keeps txnId mode then t.modeOf key txnId else some mode

/-- The locks are those of the table the call began with. -/
structure SameLocks (t t' : LockTable) : Prop where
  entry : ∀ key, t'.entry key = t.entry key
  rangeLocks : t'.rangeLocks = t.rangeLocks

/-- The lock has been granted, and the other modes are as they were. -/
structure GrantedLock (t : LockTable) (txnId : ℕ) (key : Bytes) (mode : LockMode)
    (t' : LockTable) : Prop where
  result : t.foretold txnId key mode = .ok ()
  own : t'.modeOf key txnId = t.grantedMode txnId key mode
  others : ∀ key' other, ¬ (key' = key ∧ other = txnId) → t'.modeOf key' other = t.modeOf key' other

/-- How far `lock_key` has come in this table, from the first table. -/
def AloneAt (t : LockTable) (txnId : ℕ) (key : Bytes) (mode : LockMode) (t' : LockTable) :
    LockCall → Prop
  | .keyRange key' mode' => key' = key ∧ mode' = mode ∧ t' = t
  | .keyEntry key' mode' | .keyTry key' mode' =>
      key' = key ∧ mode' = mode ∧ t.checkRangeConflict txnId key mode = false ∧ SameLocks t t'
  | .keyHolders key' mode' | .keyEdges key' mode' _ | .keyAcquire key' mode' _
  | .keyWait key' mode' _ =>
      key' = key ∧ mode' = mode ∧ t.foretold txnId key mode = .error .timeout ∧ SameLocks t t'
  | .keyUnwait _ _ result =>
      result = .error .timeout ∧ t.foretold txnId key mode = .error .timeout ∧ SameLocks t t'
  | .keyRecord _ | .keyEscalate | .keyCount => GrantedLock t txnId key mode t'
  | .rangeCheck _ _ _ escalating | .rangeIter _ _ _ escalating
  | .rangeScan _ _ _ escalating _ | .rangeInsert _ _ _ escalating =>
      escalating = true ∧ GrantedLock t txnId key mode t'
  | .done result =>
      result = t.foretold txnId key mode ∧
        (result = .ok () → GrantedLock t txnId key mode t') ∧
          (result ≠ .ok () → SameLocks t t')
  | _ => False

section

variable {t t' : LockTable} {txnId : ℕ} {key : Bytes} {mode : LockMode}

theorem aloneAt_recording {call : LockCall} (hrecording : call.Recording)
    (h : GrantedLock t txnId key mode t') : AloneAt t txnId key mode t' call := by
  cases call with
  | keyRecord key' => exact h
  | keyEscalate => exact h
  | keyCount => exact h
  | rangeCheck start last mode' escalating => exact ⟨hrecording, h⟩
  | rangeIter start last mode' escalating => exact ⟨hrecording, h⟩
  | rangeScan start last mode' escalating todo => exact ⟨hrecording, h⟩
  | rangeInsert start last mode' escalating => exact ⟨hrecording, h⟩
  | _ => exact hrecording.elim

/-- A step that grants and releases nothing leaves the grant as it is. -/
theorem GrantedLock.step (h : GrantedLock t txnId key mode t') {choice : LockChoice}
    {call : LockCall} (hgrant : ∀ key' mode', t'.effect txnId choice call ≠ .grant key' mode')
    (hrelease : ∀ key', t'.effect txnId choice call ≠ .release key') :
    GrantedLock t txnId key mode (t'.step txnId choice call).1 := by
  have hmodes : ∀ key' other,
      (t'.step txnId choice call).1.modeOf key' other = t'.modeOf key' other := by
    intro key' other
    rw [modeOf_step]
    split
    · next heffect => exact absurd heffect (hgrant _ _)
    · next heffect => exact absurd heffect (hrelease _)
    · rfl
  refine ⟨h.result, (hmodes key txnId).trans h.own, fun key' other hne => ?_⟩
  rw [hmodes]
  exact h.others key' other hne

/-- While the lock is recorded nothing is granted or released, and the end is `Ok`. -/
theorem GrantedLock.recording (h : GrantedLock t txnId key mode t') (call : LockCall)
    (hrecording : call.Recording) (choice : LockChoice) :
    AloneAt t txnId key mode (t'.step txnId choice call).1 (t'.step txnId choice call).2 := by
  obtain ⟨hgrant, hrelease⟩ := effect_recording t' txnId choice hrecording
  have hkept := h.step hgrant hrelease
  rcases recording_step t' txnId choice hrecording with hnext | hnext
  · exact aloneAt_recording hnext hkept
  · rw [hnext]
    exact ⟨h.result.symm, fun _ => hkept, fun hne => absurd rfl hne⟩

/-- A step that does nothing to the locks. -/
theorem SameLocks.step (h : SameLocks t t') {choice : LockChoice} {call : LockCall}
    (heffect : t'.effect txnId choice call = .none) :
    SameLocks t (t'.step txnId choice call).1 where
  entry := by
    intro key'
    rw [entry_step, heffect]
    exact h.entry key'
  rangeLocks := by
    rw [rangeLocks_step, heffect]
    exact h.rangeLocks

theorem SameLocks.modeOf (h : SameLocks t t') (key' : Bytes) (other : ℕ) :
    t'.modeOf key' other = t.modeOf key' other := by
  rw [LockTable.modeOf, LockTable.modeOf, h.entry]

/-- What is foretold when no range is in the way. -/
theorem foretold_of_free (hfree : t.checkRangeConflict txnId key mode = false) :
    t.foretold txnId key mode =
      if (t.entry key).keeps txnId mode || (t.entry key).isCompatibleWithHolders txnId mode then
        .ok () else .error .timeout := by
  rw [foretold, checkConflict, checkHolders_eq, hfree]
  cases (t.entry key).keeps txnId mode <;>
    cases (t.entry key).isCompatibleWithHolders txnId mode <;> rfl

theorem not_granted_of_timeout (hforetold : t.foretold txnId key mode = .error .timeout) :
    (t.entry key).keeps txnId mode = false ∧
      (t.entry key).isCompatibleWithHolders txnId mode = false := by
  cases hfree : t.checkRangeConflict txnId key mode with
  | true =>
      rw [foretold, if_pos hfree] at hforetold
      cases hforetold
  | false =>
      rw [foretold_of_free hfree] at hforetold
      split at hforetold
      · cases hforetold
      · next hnot => simpa using hnot

theorem refused_of_tryAcquire {e e' : LockEntry} (htry : e.tryAcquire txnId mode = (false, e')) :
    e.keeps txnId mode = false ∧ e.isCompatibleWithHolders txnId mode = false := by
  rcases e.tryAcquire_cases txnId mode with ⟨-, htry'⟩ | ⟨-, -, htry'⟩ | ⟨hkeeps, hcompatible, -⟩
  · cases htry.symm.trans htry'
  · cases htry.symm.trans htry'
  · exact ⟨hkeeps, hcompatible⟩

/-- The lock is granted at the first attempt. -/
theorem SameLocks.grants (h : SameLocks t t')
    (hfree : t.checkRangeConflict txnId key mode = false) {e : LockEntry}
    (htry : (t'.entry key).tryAcquire txnId mode = (true, e)) :
    GrantedLock t txnId key mode (t'.setEntry key e) := by
  have hmodes : ∀ key' other, (t'.setEntry key e).modeOf key' other =
      if key' = key then e.getMode other else t.modeOf key' other := by
    intro key' other
    rw [LockTable.modeOf, entry_setEntry]
    split
    · rfl
    · exact h.modeOf key' other
  rw [h.entry] at htry
  -- the lock is kept, it is new, or it is refused, which it was not
  rcases (t.entry key).tryAcquire_cases txnId mode with
    ⟨hkeeps, htry'⟩ | ⟨hkeeps, hcompatible, htry'⟩ | ⟨hkeeps, hcompatible, htry'⟩
  · obtain ⟨-, rfl⟩ := Prod.mk.inj (htry.symm.trans htry')
    refine ⟨by rw [foretold_of_free hfree, hkeeps]; rfl, ?_, ?_⟩
    · rw [hmodes, if_pos rfl, grantedMode, hkeeps]
      rfl
    · intro key' other _
      rw [hmodes]
      split
      · next heq => rw [heq]; rfl
      · rfl
  · obtain ⟨-, rfl⟩ := Prod.mk.inj (htry.symm.trans htry')
    refine ⟨by rw [foretold_of_free hfree, hcompatible, Bool.or_true]; rfl, ?_, ?_⟩
    · rw [hmodes, if_pos rfl, grantedMode, hkeeps, LockEntry.getMode_insert, if_pos rfl]
      rfl
    · intro key' other hne
      rw [hmodes]
      split
      · next heq =>
          rw [LockEntry.getMode_insert, if_neg fun hother => hne ⟨heq, hother⟩, heq]
          rfl
      · rfl
  · rw [htry'] at htry
    cases htry

/-- One step of the call. -/
theorem AloneAt.step {call : LockCall} (h : AloneAt t txnId key mode t' call)
    (choice : LockChoice) :
    AloneAt t txnId key mode (t'.step txnId choice call).1 (t'.step txnId choice call).2 := by
  cases call with
  | keyRange key' mode' =>
      obtain ⟨rfl, rfl, rfl⟩ := h
      rw [LockTable.step, ← checkRangeConflict_eq]
      split
      · next hconflict =>
          refine ⟨by rw [foretold, if_pos hconflict], fun hok => ?_, fun _ => ⟨fun _ => rfl, rfl⟩⟩
          contradiction
      · next hfree => exact ⟨rfl, rfl, by simpa using hfree, fun _ => rfl, rfl⟩
  | keyEntry key' mode' =>
      obtain ⟨rfl, rfl, hfree, hsame⟩ := h
      have hkept : SameLocks t (t'.step txnId choice (.keyEntry key' mode')).1 := hsame.step rfl
      have hnext : (t'.step txnId choice (.keyEntry key' mode')).2 = .keyTry key' mode' := by
        rw [LockTable.step]
        split <;> rfl
      rw [hnext]
      exact ⟨rfl, rfl, hfree, hkept⟩
  | keyTry key' mode' =>
      obtain ⟨rfl, rfl, hfree, hsame⟩ := h
      rw [LockTable.step]
      split
      · next e htry => exact hsame.grants hfree htry
      · next e htry =>
          rw [hsame.entry] at htry
          have hrefused := refused_of_tryAcquire htry
          refine ⟨rfl, rfl, ?_, hsame⟩
          rw [foretold_of_free hfree, hrefused.1, hrefused.2]
          rfl
  | keyHolders key' mode' => exact h
  | keyEdges key' mode' holders =>
      obtain ⟨rfl, rfl, htimeout, hsame⟩ := h
      exact ⟨rfl, rfl, htimeout, hsame.entry, hsame.rangeLocks⟩
  | keyAcquire key' mode' holders =>
      obtain ⟨rfl, rfl, htimeout, hsame⟩ := h
      -- the locks are those of the first attempt, which was refused
      obtain ⟨hkeeps, hcompatible⟩ := not_granted_of_timeout htimeout
      have hrefused : (t'.entry key').tryAcquire txnId mode' = (false, t.entry key') := by
        simp [hsame.entry, LockEntry.tryAcquire, hkeeps, hcompatible]
      rw [LockTable.step, hrefused]
      exact ⟨rfl, rfl, htimeout, hsame⟩
  | keyWait key' mode' holders =>
      obtain ⟨rfl, rfl, htimeout, hsame⟩ := h
      obtain ⟨-, hcompatible⟩ := not_granted_of_timeout htimeout
      have hrefused : (t'.entry key').acquireTurn txnId mode' = none := by
        simp [hsame.entry, LockEntry.acquireTurn, hcompatible]
      rw [LockTable.step, hrefused]
      split
      · exact ⟨rfl, htimeout, hsame⟩
      · exact ⟨rfl, rfl, htimeout, hsame⟩
  | keyUnwait key' holders result =>
      obtain ⟨rfl, htimeout, hsame⟩ := h
      refine ⟨htimeout.symm, fun hok => ?_, fun _ => ⟨hsame.entry, hsame.rangeLocks⟩⟩
      cases hok
  | done result =>
      obtain ⟨hresult, hgranted, hsame⟩ := h
      exact ⟨hresult, hgranted, hsame⟩
  -- once granted, the rest of the call only records
  | keyRecord key' => exact GrantedLock.recording h (.keyRecord key') trivial choice
  | keyEscalate => exact GrantedLock.recording h .keyEscalate trivial choice
  | keyCount => exact GrantedLock.recording h .keyCount trivial choice
  | rangeCheck start last mode' escalating =>
      exact h.2.recording (.rangeCheck start last mode' escalating) h.1 choice
  | rangeIter start last mode' escalating =>
      exact h.2.recording (.rangeIter start last mode' escalating) h.1 choice
  | rangeScan start last mode' escalating todo =>
      exact h.2.recording (.rangeScan start last mode' escalating todo) h.1 choice
  | rangeInsert start last mode' escalating =>
      exact h.2.recording (.rangeInsert start last mode' escalating) h.1 choice
  | _ => exact h.elim

theorem AloneAt.runCall {call : LockCall} (h : AloneAt t txnId key mode t' call)
    (choices : List LockChoice) :
    AloneAt t txnId key mode (t'.runCall txnId call choices).1
      (t'.runCall txnId call choices).2 := by
  induction choices generalizing t' call with
  | nil => exact h
  | cons choice rest ih => exact ih (h.step choice)

end

/-! ## It comes to its end -/

/-- There are choices that bring the call to its end. -/
def Completes (t : LockTable) (txnId : ℕ) (call : LockCall) : Prop :=
  ∃ choices result, (t.runCall txnId call choices).2 = .done result

section

variable {t : LockTable} {txnId : ℕ}

theorem completes_of_step {call : LockCall} (choice : LockChoice)
    (h : (t.step txnId choice call).1.Completes txnId (t.step txnId choice call).2) :
    t.Completes txnId call := by
  obtain ⟨choices, result, hdone⟩ := h
  exact ⟨choice :: choices, result, hdone⟩

theorem completes_keyCount (t : LockTable) (txnId : ℕ) : t.Completes txnId .keyCount :=
  ⟨[.next], .ok (), rfl⟩

/-- An iteration that comes to what is left, key by key. -/
theorem completes_rangeScan (t : LockTable) (txnId : ℕ) (start last : Bound) (mode : LockMode)
    (todo : List Bytes) : t.Completes txnId (.rangeScan start last mode true todo) := by
  induction todo with
  | nil => exact ⟨[.next, .next, .next], .ok (), rfl⟩
  | cons key rest ih =>
      apply completes_of_step (.visit key)
      simp only [step]
      split
      · exact completes_keyCount t txnId
      · rw [List.erase_cons_head]
        exact ih

theorem completes_rangeCheck (t : LockTable) (txnId : ℕ) (start last : Bound) (mode : LockMode) :
    t.Completes txnId (.rangeCheck start last mode true) := by
  apply completes_of_step .next
  rw [step]
  split
  · exact completes_keyCount t txnId
  · split
    · exact completes_keyCount t txnId
    · exact completes_of_step .next (completes_rangeScan t txnId start last mode _)

theorem completes_keyEscalate (t : LockTable) (txnId : ℕ) : t.Completes txnId .keyEscalate := by
  apply completes_of_step .next
  rw [step]
  split
  · exact completes_keyCount _ txnId
  · simp only
    split
    · exact completes_rangeCheck _ txnId _ _ .x
    · exact completes_keyCount _ txnId

theorem completes_keyRecord (t : LockTable) (txnId : ℕ) (key : Bytes) :
    t.Completes txnId (.keyRecord key) := by
  apply completes_of_step .next
  rw [step]
  split
  · exact completes_keyCount _ txnId
  · exact completes_keyEscalate _ txnId

theorem completes_keyUnwait (t : LockTable) (txnId : ℕ) (key : Bytes) (holders : List ℕ)
    (result : Except LockError Unit) : t.Completes txnId (.keyUnwait key holders result) := by
  apply completes_of_step .next
  cases result with
  | error e => exact ⟨[], .error e, rfl⟩
  | ok _ => exact completes_keyRecord _ txnId key

/-- With a deadline the wait ends. -/
theorem completes_keyWait (t : LockTable) (txnId : ℕ) (key : Bytes) (mode : LockMode)
    (holders : List ℕ) : t.Completes txnId (.keyWait key mode holders) :=
  completes_of_step .timeout (completes_keyUnwait t txnId key holders (.error .timeout))

theorem completes_keyAcquire (t : LockTable) (txnId : ℕ) (key : Bytes) (mode : LockMode)
    (holders : List ℕ) : t.Completes txnId (.keyAcquire key mode holders) := by
  apply completes_of_step .next
  rw [step]
  split
  · exact completes_keyUnwait _ txnId key holders (.ok ())
  · exact completes_keyWait t txnId key mode holders

theorem completes_keyTry (t : LockTable) (txnId : ℕ) (key : Bytes) (mode : LockMode) :
    t.Completes txnId (.keyTry key mode) := by
  apply completes_of_step .next
  rw [step]
  split
  · exact completes_keyRecord _ txnId key
  · apply completes_of_step .next
    exact completes_of_step .next (completes_keyAcquire _ txnId key mode _)

theorem completes_keyRange (t : LockTable) (txnId : ℕ) (key : Bytes) (mode : LockMode) :
    t.Completes txnId (.keyRange key mode) := by
  apply completes_of_step .next
  rw [step]
  split
  · exact ⟨[], .error .rangeConflict, rfl⟩
  · apply completes_of_step .next
    rw [step]
    split <;> exact completes_keyTry _ txnId key mode

end

/-- What `lock_key` does when nobody interferes, whatever the deadline and the order of its
iterations. -/
structure Foretold (t : LockTable) (txnId : ℕ) (key : Bytes) (mode : LockMode) : Prop where
  /-- The checks are right. -/
  announced : t.checkConflict txnId key mode = true → t.Conflicts txnId key mode
  unannounced : ¬ IntervalTree.unboundedEnd < key → t.checkConflict txnId key mode = false →
    ¬ t.Conflicts txnId key mode
  /-- The call comes to its end, and to nothing else than what they say. -/
  completes : t.Completes txnId (.keyRange key mode)
  result : ∀ choices result, (t.runCall txnId (.keyRange key mode) choices).2 = .done result →
    result = t.foretold txnId key mode
  /-- It has the mode then, or no lock has changed. -/
  granted : ∀ choices, (t.runCall txnId (.keyRange key mode) choices).2 = .done (.ok ()) →
    (t.runCall txnId (.keyRange key mode) choices).1.modeOf key txnId =
      t.grantedMode txnId key mode
  refused : ∀ choices e, (t.runCall txnId (.keyRange key mode) choices).2 = .done (.error e) →
    SameLocks t (t.runCall txnId (.keyRange key mode) choices).1
  /-- And the others have noticed nothing. -/
  spares : ∀ choices, Spares txnId t (t.runCall txnId (.keyRange key mode) choices).1

theorem foretold_of_wellFormed {t : LockTable} (hranges : t.rangeLocks.WellFormed) (txnId : ℕ)
    (key : Bytes) (mode : LockMode) : t.Foretold txnId key mode := by
  have hbegins : AloneAt t txnId key mode t (.keyRange key mode) := ⟨rfl, rfl, rfl⟩
  have hends : ∀ choices result,
      (t.runCall txnId (.keyRange key mode) choices).2 = .done result →
        AloneAt t txnId key mode (t.runCall txnId (.keyRange key mode) choices).1
          (.done result) := by
    intro choices result hdone
    have hstage := hbegins.runCall choices
    rw [hdone] at hstage
    exact hstage
  refine ⟨conflicts_of_checkConflict hranges, ?_, completes_keyRange t txnId key mode, ?_, ?_, ?_,
    t.spares_runCall txnId _⟩
  · intro hkey hfree hconflict
    rw [checkConflict_of_conflicts hranges hkey hconflict] at hfree
    contradiction
  · exact fun choices result hdone => (hends choices result hdone).1
  · exact fun choices hdone => ((hends choices (.ok ()) hdone).2.1 rfl).own
  · intro choices e hdone
    apply (hends choices (.error e) hdone).2.2
    intro heq
    cases heq

end LockTable

namespace LockSystem

/-- In every state of a lock table, whatever other calls have come to, the checks of a key are
right, and say what `lock_key` does if it is not interfered with. -/
theorem foretold_run (config : LockConfig) (steps : List LockStep) (txnId : ℕ) (key : Bytes)
    (mode : LockMode) :
    (Run.run step (init config) steps).table.Foretold txnId key mode := by
  have hranges : (Run.run step (init config) steps).table.rangeLocks.WellFormed := by
    refine Run.invariant (fun s : LockSystem => s.table.rangeLocks.WellFormed) ?_
      IntervalTree.wellFormed_new steps
    intro s action h
    cases action with
    | call txnId request => exact h
    | advance callId choice =>
        rw [step]
        cases hcall : s.calls.lookup callId with
        | none => exact h
        | some call =>
            simp only
            rw [LockTable.rangeLocks_step]
            exact LockTable.wellFormed_rangesAfter h call.1 _
  exact LockTable.foretold_of_wellFormed hranges txnId key mode

/-- Two transactions share a key. -/
def sharedKey : List LockStep :=
  called 1 (.lockKey [107] .s) 0 5 ++ called 2 (.lockKey [107] .s) 1 5

/-- There is no way from `S` to `IX`, and so the first is granted `IX` although the check says
that the second is in the way; a third one is not. -/
example :
    let t := (Run.run step (init LockConfig.default) sharedKey).table
    t.checkConflict 1 [107] .ix = true ∧ t.foretold 1 [107] .ix = .ok () ∧
      t.grantedMode 1 [107] .ix = some .s ∧ t.foretold 3 [107] .ix = .error .timeout := by
  decide +kernel

end LockSystem
end Crabstash

import Crabstash.Lock.LockCalls

/-!
# What a release leaves

`release_all` takes a transaction out of the table one structure after the other: the
entries of the keys, the range locks, its own waits, and then the wait-for graph and the
escalation states.  `ReleasedUpTo` says what is gone by which step, and each step of the
release brings the next (`releasedUpTo_own`).

Steps of others keep it so, with one exception.  A call that waits has read the holders of
its key before it comes to the graph, and adds its edges then; a holder may have been
unregistered in between, and is back in the graph.  `Registered` leaves this out.
-/

namespace Crabstash

namespace WaitForGraph

/-- The graph does not mention the transaction. -/
structure Free (g : WaitForGraph) (txnId : ℕ) : Prop where
  waits : g.edges.lookup txnId = none
  waitedFor : ∀ waiter holders, g.edges.lookup waiter = some holders → txnId ∉ holders
  txnInfo : g.txnInfo.lookup txnId = none

section

variable {g : WaitForGraph} {txnId other : ℕ}

theorem lookup_unregisterTxn (g : WaitForGraph) (other waiter : ℕ) :
    (g.unregisterTxn other).edges.lookup waiter =
      ((g.edges.erase other).lookup waiter).map fun holders => holders.filter (· != other) :=
  List.dlookup_map₂ (f := fun (_ : ℕ) (holders : List ℕ) => holders.filter (· != other)) waiter

theorem Free.registerTxn (h : g.Free txnId) (hne : txnId ≠ other) (startTs priority : ℕ) :
    (g.registerTxn other startTs priority).Free txnId :=
  ⟨h.waits, h.waitedFor, (AList.lookup_insert_ne hne).trans h.txnInfo⟩

theorem Free.unregisterTxn (h : g.Free txnId) (other : ℕ) :
    (g.unregisterTxn other).Free txnId := by
  -- the edges of another transaction go as a whole or stay
  have hedges : ∀ waiter, (g.edges.erase other).lookup waiter = none ∨
      (g.edges.erase other).lookup waiter = g.edges.lookup waiter := by
    intro waiter
    by_cases heq : waiter = other
    · rw [heq]
      exact Or.inl (AList.lookup_erase _ _)
    · exact Or.inr (AList.lookup_erase_ne heq)
  refine ⟨?_, ?_, ?_⟩
  · rw [lookup_unregisterTxn]
    rcases hedges txnId with hnone | hsame
    · rw [hnone]
      rfl
    · rw [hsame, h.waits]
      rfl
  · intro waiter holders hholders
    rw [lookup_unregisterTxn] at hholders
    rcases hedges waiter with hnone | hsame
    · rw [hnone] at hholders
      contradiction
    · rw [hsame] at hholders
      obtain ⟨holders', hlookup, rfl⟩ := Option.map_eq_some_iff.mp hholders
      intro hmem
      exact h.waitedFor waiter holders' hlookup (List.mem_of_mem_filter hmem)
  · by_cases heq : txnId = other
    · rw [heq]
      exact AList.lookup_erase _ _
    · exact (AList.lookup_erase_ne heq).trans h.txnInfo

/-- A transaction that is unregistered is gone. -/
theorem free_unregisterTxn (g : WaitForGraph) (txnId : ℕ) : (g.unregisterTxn txnId).Free txnId := by
  refine ⟨?_, ?_, AList.lookup_erase _ _⟩
  · rw [lookup_unregisterTxn, AList.lookup_erase]
    rfl
  · intro waiter holders hholders
    rw [lookup_unregisterTxn] at hholders
    obtain ⟨holders', -, rfl⟩ := Option.map_eq_some_iff.mp hholders
    simp

theorem Free.addWaitEdge (h : g.Free txnId) {waiter holder : ℕ} (hne : txnId ≠ waiter)
    (hholder : txnId ≠ holder ∨ waiter = holder) : (g.addWaitEdge waiter holder).Free txnId := by
  unfold WaitForGraph.addWaitEdge
  split
  · exact h
  · next hnot =>
      have hholder := hholder.resolve_right hnot
      refine ⟨(AList.lookup_insert_ne hne).trans h.waits, ?_, h.txnInfo⟩
      intro waiter' holders hholders
      by_cases heq : waiter' = waiter
      · rw [heq, AList.lookup_insert] at hholders
        obtain rfl := Option.some.inj hholders
        intro hmem
        rcases List.mem_insert_iff.mp hmem with heq | hmem
        · exact hholder heq
        · cases hlookup : g.edges.lookup waiter with
          | none =>
              rw [hlookup] at hmem
              exact absurd hmem List.not_mem_nil
          | some holders' =>
              rw [hlookup] at hmem
              exact h.waitedFor waiter holders' hlookup hmem
      · rw [AList.lookup_insert_ne heq] at hholders
        exact h.waitedFor waiter' holders hholders

theorem Free.addWaitEdges (h : g.Free txnId) {waiter : ℕ} (hne : txnId ≠ waiter)
    {holders : List ℕ} (hholders : ∀ holder ∈ holders, txnId ≠ holder ∨ waiter = holder) :
    (holders.foldl (fun g holder => g.addWaitEdge waiter holder) g).Free txnId := by
  induction holders generalizing g with
  | nil => exact h
  | cons holder rest ih =>
      rw [List.forall_mem_cons] at hholders
      exact ih (h.addWaitEdge hne hholders.1) hholders.2

theorem Free.removeWaitEdge (h : g.Free txnId) {waiter : ℕ} (hne : txnId ≠ waiter) (holder : ℕ) :
    (g.removeWaitEdge waiter holder).Free txnId := by
  unfold WaitForGraph.removeWaitEdge
  cases hlookup : g.edges.lookup waiter with
  | none => exact h
  | some holders =>
      simp only
      split
      · refine ⟨(AList.lookup_erase_ne hne).trans h.waits, ?_, h.txnInfo⟩
        exact fun waiter' holders' hholders' =>
          h.waitedFor waiter' holders' (lookup_of_erase hholders')
      · refine ⟨(AList.lookup_insert_ne hne).trans h.waits, ?_, h.txnInfo⟩
        intro waiter' holders' hholders'
        by_cases heq : waiter' = waiter
        · rw [heq, AList.lookup_insert] at hholders'
          obtain rfl := Option.some.inj hholders'
          exact fun hmem => h.waitedFor waiter holders hlookup (List.mem_of_mem_filter hmem)
        · rw [AList.lookup_insert_ne heq] at hholders'
          exact h.waitedFor waiter' holders' hholders'

theorem Free.removeWaitEdges (h : g.Free txnId) {waiter : ℕ} (hne : txnId ≠ waiter)
    (holders : List ℕ) :
    (holders.foldl (fun g holder => g.removeWaitEdge waiter holder) g).Free txnId := by
  induction holders generalizing g with
  | nil => exact h
  | cons holder rest ih => exact ih (h.removeWaitEdge hne holder)

theorem Free.removeAllWaits (h : g.Free txnId) (other : ℕ) : (g.removeAllWaits other).Free txnId := by
  refine ⟨?_, ?_, h.txnInfo⟩
  · by_cases heq : txnId = other
    · rw [heq]
      exact AList.lookup_erase _ _
    · exact (AList.lookup_erase_ne heq).trans h.waits
  · exact fun waiter holders hholders => h.waitedFor waiter holders (lookup_of_erase hholders)

theorem Free.incrementLockCount (h : g.Free txnId) (hne : txnId ≠ other) :
    (g.incrementLockCount other).Free txnId := by
  unfold WaitForGraph.incrementLockCount
  split
  · exact h
  · exact ⟨h.waits, h.waitedFor, (AList.lookup_insert_ne hne).trans h.txnInfo⟩

end

end WaitForGraph

namespace LockTable

/-! ## The graph and the escalation states after a step -/

section

variable (t : LockTable) (txnId : ℕ) (choice : LockChoice) (call : LockCall)

theorem waiterGraph_step : (t.step txnId choice call).1.waiterGraph = t.graphAfter txnId call := by
  obtain ⟨_, _, _, hstep⟩ := t.step_parts txnId choice call
  rw [hstep]

theorem escalationState_step {txnId' : ℕ} (hne : txnId' ≠ txnId) :
    (t.step txnId choice call).1.escalationState.lookup txnId' =
      t.escalationState.lookup txnId' := by
  obtain ⟨_, _, hothers, hstep⟩ := t.step_parts txnId choice call
  rw [hstep]
  exact hothers txnId' hne

end

/-! ## Stages of a release -/

/-- The transaction holds no key. -/
def NoKeys (t : LockTable) (txnId : ℕ) : Prop := ∀ key, t.modeOf key txnId = none

/-- The transaction has no range lock. -/
def NoRanges (t : LockTable) (txnId : ℕ) : Prop := ∀ e ∈ t.rangeLocks.entries, e.txnId ≠ txnId

/-- Nothing in the table mentions the transaction. -/
structure Gone (t : LockTable) (txnId : ℕ) : Prop where
  keys : t.NoKeys txnId
  ranges : t.NoRanges txnId
  graph : t.waiterGraph.Free txnId
  escalation : t.escalationState.lookup txnId = none

/-- Where only the transaction is in the way of another, the checks of `lock_key` pass. -/
def Available (t : LockTable) (txnId : ℕ) : Prop :=
  ∀ other key mode,
    (∀ holder mode', t.modeOf key holder = some mode' → holder = txnId ∨ holder = other) →
    (∀ e ∈ t.rangeLocks.findContainingKey key, e.txnId = txnId ∨ e.txnId = other) →
      t.keyFree other key mode = true ∧
        (t.entry key).isCompatibleWithHolders other mode = true

theorem Gone.available {t : LockTable} {txnId : ℕ} (h : t.Gone txnId) : t.Available txnId := by
  intro other key mode hholders hranges
  constructor
  · unfold keyFree
    rw [List.all_eq_true]
    intro e he
    have hne := h.ranges e (IntervalTree.mem_entries_of_mem_find he)
    have heq := (hranges e he).resolve_left hne
    simp [heq]
  · rw [LockEntry.isCompatibleWithHolders_iff]
    intro holder mode' hheld
    have hne : holder ≠ txnId := by
      rintro rfl
      have hnone : (t.entry key).getMode holder = none := h.keys key
      rw [hnone] at hheld
      contradiction
    exact Or.inl ((hholders holder mode' hheld).resolve_left hne)

/-- What is gone before a step of the release. -/
def ReleasedUpTo (t : LockTable) (txnId : ℕ) : LockCall → Prop
  | .releaseIter => True
  | .releaseKeys todo => ∀ key, t.modeOf key txnId ≠ none → key ∈ todo
  | .releaseRanges => t.NoKeys txnId
  | .releaseWaits => t.NoKeys txnId ∧ t.NoRanges txnId
  | .unregisterGraph => t.NoKeys txnId ∧ t.NoRanges txnId
  | .unregisterEscalation =>
      t.NoKeys txnId ∧ t.NoRanges txnId ∧ t.waiterGraph.Free txnId
  | .done _ => t.Gone txnId
  | _ => False

section

variable {t : LockTable} {txnId : ℕ}

theorem mem_keys_of_modeOf {key : Bytes} (h : t.modeOf key txnId ≠ none) :
    key ∈ t.keyLocks.keys := by
  rw [← AList.mem_keys, ← AList.lookup_isSome]
  cases hlookup : t.keyLocks.lookup key with
  | some entry => rfl
  | none =>
      rw [modeOf, entry, hlookup] at h
      exact absurd rfl h

/-- A release takes no key and no range lock. -/
theorem modeOf_releases {call : LockCall} (hreleases : call.Releases) (choice : LockChoice)
    {key : Bytes} (h : (t.step txnId choice call).1.modeOf key txnId ≠ none) :
    t.modeOf key txnId ≠ none := by
  rw [modeOf_step] at h
  rcases effect_releases t txnId choice hreleases with heq | ⟨key', heq⟩ | heq
  · rw [heq] at h
    exact h
  · rw [heq] at h
    simp only at h
    split at h
    · exact absurd rfl h
    · exact h
  · rw [heq] at h
    exact h

theorem NoKeys.releases (h : t.NoKeys txnId) (call : LockCall) (hreleases : call.Releases)
    (choice : LockChoice) : (t.step txnId choice call).1.NoKeys txnId := by
  intro key
  by_contra hheld
  exact modeOf_releases hreleases choice hheld (h key)

theorem NoRanges.releases (h : t.NoRanges txnId) (call : LockCall) (hreleases : call.Releases)
    (choice : LockChoice) : (t.step txnId choice call).1.NoRanges txnId := by
  intro e he
  rw [rangeLocks_step] at he
  rcases effect_releases t txnId choice hreleases with heq | ⟨key, heq⟩ | heq
  · rw [heq] at he
    exact h e he
  · rw [heq] at he
    exact h e he
  · rw [heq, rangesAfter, IntervalTree.entries_removeByTxn, List.mem_filter] at he
    exact h e he.1

/-- Each step of a release brings the next stage. -/
theorem releasedUpTo_own {call : LockCall} (h : t.ReleasedUpTo txnId call) (choice : LockChoice) :
    (t.step txnId choice call).1.ReleasedUpTo txnId (t.step txnId choice call).2 := by
  cases call with
  | releaseIter => exact fun key hheld => mem_keys_of_modeOf hheld
  | releaseKeys todo =>
      have htodo : ∀ key, t.modeOf key txnId ≠ none → key ∈ todo := h
      have hover : todo.isEmpty = true → t.NoKeys txnId := by
        intro hempty key
        by_contra hheld
        have hmem := htodo key hheld
        rw [List.isEmpty_iff.mp hempty] at hmem
        exact absurd hmem List.not_mem_nil
      cases choice with
      | visit key' =>
          have hmode := fun key => t.modeOf_step txnId (.visit key') (.releaseKeys todo) key txnId
          simp only [step, effect] at hmode ⊢
          split
          · exact h
          · next e hlookup =>
              rw [hlookup] at hmode
              intro key hheld
              -- what is still held is another key than the one just visited
              have hheld' : t.modeOf key txnId ≠ none ∧ key ≠ key' := by
                rw [hmode key] at hheld
                split at hheld
                · exact absurd rfl hheld
                · next hnot => exact ⟨hheld, fun heq => hnot ⟨heq, trivial⟩⟩
              exact (List.mem_erase_of_ne hheld'.2).mpr (htodo key hheld'.1)
      | next =>
          simp only [step]
          split
          · next hempty => exact hover hempty
          · exact h
      | timeout =>
          simp only [step]
          split
          · next hempty => exact hover hempty
          · exact h
  | releaseRanges =>
      have hkeys : t.NoKeys txnId := h
      refine ⟨hkeys.releases .releaseRanges trivial choice, ?_⟩
      intro e he
      have he : e ∈ (t.rangeLocks.removeByTxn txnId).entries := he
      rw [IntervalTree.entries_removeByTxn, List.mem_filter] at he
      simpa using he.2
  | releaseWaits =>
      have hpart : t.NoKeys txnId ∧ t.NoRanges txnId := h
      exact ⟨hpart.1.releases .releaseWaits trivial choice,
        hpart.2.releases .releaseWaits trivial choice⟩
  | unregisterGraph =>
      have hpart : t.NoKeys txnId ∧ t.NoRanges txnId := h
      exact ⟨hpart.1.releases .unregisterGraph trivial choice,
        hpart.2.releases .unregisterGraph trivial choice, WaitForGraph.free_unregisterTxn _ _⟩
  | unregisterEscalation =>
      have hpart : t.NoKeys txnId ∧ t.NoRanges txnId ∧ t.waiterGraph.Free txnId := h
      exact ⟨hpart.1.releases .unregisterEscalation trivial choice,
        hpart.2.1.releases .unregisterEscalation trivial choice, hpart.2.2, AList.lookup_erase _ _⟩
  | done result => exact h
  | _ => exact h.elim

end

/-! ## Steps of others -/

/-- The transactions that a step adds waits for. -/
def waitsFor : LockCall → List ℕ
  | .keyEdges _ _ holders => holders
  | _ => []

/-- A call that adds its waits finds the holders registered. -/
def Registered (t : LockTable) (txnId : ℕ) (call : LockCall) : Prop :=
  ∀ holder ∈ waitsFor call, holder = txnId ∨ (t.waiterGraph.txnInfo.lookup holder).isSome = true

instance (t : LockTable) (txnId : ℕ) (call : LockCall) : Decidable (t.Registered txnId call) :=
  inferInstanceAs (Decidable (∀ holder ∈ waitsFor call, _))

section

variable {t : LockTable} {txnId actor : ℕ} {choice : LockChoice} {call : LockCall}

theorem modeOf_other (hne : txnId ≠ actor) (key : Bytes) :
    (t.step actor choice call).1.modeOf key txnId = t.modeOf key txnId := by
  rw [modeOf_step]
  split <;> simp [hne]

theorem NoKeys.other (h : t.NoKeys txnId) (hne : txnId ≠ actor) :
    (t.step actor choice call).1.NoKeys txnId := fun key => (modeOf_other hne key).trans (h key)

theorem NoRanges.other (h : t.NoRanges txnId) (hne : txnId ≠ actor) :
    (t.step actor choice call).1.NoRanges txnId := by
  have hsound := t.sound_effect actor choice call
  intro e he
  rw [rangeLocks_step] at he
  cases heq : t.effect actor choice call with
  | insertRange e' =>
      rw [heq] at he hsound
      rw [rangesAfter, IntervalTree.entries_insert, List.mem_append, List.mem_singleton] at he
      rcases he with he | rfl
      · exact h e he
      · exact fun htxn => hne (htxn.symm.trans hsound)
  | removeRanges =>
      rw [heq, rangesAfter, IntervalTree.entries_removeByTxn, List.mem_filter] at he
      exact h e he.1
  | none =>
      rw [heq] at he
      exact h e he
  | grant key mode =>
      rw [heq] at he
      exact h e he
  | release key =>
      rw [heq] at he
      exact h e he

theorem free_other (h : t.waiterGraph.Free txnId) (hne : txnId ≠ actor)
    (hregistered : t.Registered actor call) :
    (t.step actor choice call).1.waiterGraph.Free txnId := by
  rw [waiterGraph_step]
  cases call with
  | registerGraph startTs priority => exact h.registerTxn hne startTs priority
  | keyEdges key mode holders =>
      apply h.addWaitEdges hne
      intro holder hholder
      rcases hregistered holder hholder with heq | hsome
      · exact Or.inr heq.symm
      · refine Or.inl fun heq => ?_
        rw [← heq, h.txnInfo] at hsome
        contradiction
  | keyUnwait key holders result => exact h.removeWaitEdges hne holders
  | keyCount => exact h.incrementLockCount hne
  | releaseWaits => exact h.removeAllWaits actor
  | unregisterGraph => exact h.unregisterTxn actor
  | _ => exact h

/-- What is gone stays gone. -/
theorem ReleasedUpTo.other {stage : LockCall} (h : t.ReleasedUpTo txnId stage) (hne : txnId ≠ actor)
    (hregistered : t.Registered actor call) :
    (t.step actor choice call).1.ReleasedUpTo txnId stage := by
  cases stage with
  | releaseIter => trivial
  | releaseKeys todo => exact fun key hheld => h key (modeOf_other hne key ▸ hheld)
  | releaseRanges => exact NoKeys.other h hne
  | releaseWaits => exact ⟨NoKeys.other h.1 hne, NoRanges.other h.2 hne⟩
  | unregisterGraph => exact ⟨NoKeys.other h.1 hne, NoRanges.other h.2 hne⟩
  | unregisterEscalation =>
      exact ⟨NoKeys.other h.1 hne, NoRanges.other h.2.1 hne, free_other h.2.2 hne hregistered⟩
  | done result =>
      have hgone : t.Gone txnId := h
      exact ⟨hgone.keys.other hne, hgone.ranges.other hne, free_other hgone.graph hne hregistered,
        (escalationState_step t actor choice call hne).trans hgone.escalation⟩
  | _ => exact h.elim

end

end LockTable
end Crabstash

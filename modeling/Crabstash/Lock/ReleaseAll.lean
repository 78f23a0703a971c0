import Crabstash.Lock.WaitFor

/-!
# A release without interference

`release_all` from its first step to its last, with no step of another call in between.  The
iteration over the key locks comes to every key once, in an order of its own.

What the release is for is `Gone`: nothing in the table mentions the transaction.  What it
must not touch is `Spares`: the modes of the others, their range locks, which the rebuild of
the tree puts in again one by one, and the waits among them.  Each step spares the others
(`spares_step`), and the stages of a release lead to `Gone`.
-/

namespace Crabstash
namespace LockTable

/-- A call that nobody interferes with. -/
def runCall (t : LockTable) (txnId : ℕ) (call : LockCall) :
    List LockChoice → LockTable × LockCall
  | [] => (t, call)
  | choice :: rest =>
      (t.step txnId choice call).1.runCall txnId (t.step txnId choice call).2 rest

/-- `release_all`, with the order in which the iteration comes to the keys. -/
def releaseAll (t : LockTable) (txnId : ℕ) (order : List Bytes) : LockTable × LockCall :=
  t.runCall txnId .releaseIter
    (.next :: (order.map .visit ++ [.next, .next, .next, .next, .next]))

/-- What is not of the transaction is as it was. -/
structure Spares (txnId : ℕ) (t t' : LockTable) : Prop where
  modes : ∀ key other, other ≠ txnId → t'.modeOf key other = t.modeOf key other
  ranges : (t'.rangeLocks.entries.filter fun e => e.txnId != txnId).Perm
    (t.rangeLocks.entries.filter fun e => e.txnId != txnId)
  edges : ∀ waiter holder, waiter ≠ txnId → holder ≠ txnId →
    (t'.waiterGraph.HasEdge waiter holder ↔ t.waiterGraph.HasEdge waiter holder)

theorem Spares.refl (txnId : ℕ) (t : LockTable) : Spares txnId t t :=
  ⟨fun _ _ _ => rfl, List.Perm.refl _, fun _ _ _ _ => Iff.rfl⟩

theorem Spares.trans {txnId : ℕ} {t t' t'' : LockTable} (h : Spares txnId t t')
    (h' : Spares txnId t' t'') : Spares txnId t t'' where
  modes := fun key other hne => (h'.modes key other hne).trans (h.modes key other hne)
  ranges := h'.ranges.trans h.ranges
  edges := fun waiter holder hwaiter hholder =>
    (h'.edges waiter holder hwaiter hholder).trans (h.edges waiter holder hwaiter hholder)

section

variable {t : LockTable} {txnId : ℕ} {choice : LockChoice} {call : LockCall}

theorem ranges_releases (h : call.Releases) :
    ((t.step txnId choice call).1.rangeLocks.entries.filter fun e => e.txnId != txnId) =
      t.rangeLocks.entries.filter fun e => e.txnId != txnId := by
  rw [rangeLocks_step]
  rcases effect_releases t txnId choice h with heq | ⟨key, heq⟩ | heq
  · rw [heq]
    rfl
  · rw [heq]
    rfl
  · rw [heq, rangesAfter, IntervalTree.entries_removeByTxn, List.filter_filter]
    simp only [Bool.and_self]

theorem hasEdge_releases (h : call.Releases) {waiter holder : ℕ} (hwaiter : waiter ≠ txnId)
    (hholder : holder ≠ txnId) :
    (t.step txnId choice call).1.waiterGraph.HasEdge waiter holder ↔
      t.waiterGraph.HasEdge waiter holder := by
  rw [waiterGraph_step]
  cases call with
  | releaseWaits =>
      rw [graphAfter, WaitForGraph.hasEdge_removeAllWaits]
      exact and_iff_left hwaiter
  | unregisterGraph =>
      rw [graphAfter, WaitForGraph.hasEdge_unregisterTxn]
      exact and_iff_left (not_or.mpr ⟨hwaiter, hholder⟩)
  | releaseIter => exact Iff.rfl
  | releaseKeys todo => exact Iff.rfl
  | releaseRanges => exact Iff.rfl
  | unregisterEscalation => exact Iff.rfl
  | done result => exact Iff.rfl
  | _ => exact h.elim

/-- A step of a release leaves the others alone. -/
theorem spares_step (h : call.Releases) : Spares txnId t (t.step txnId choice call).1 where
  modes := fun key _ hne => modeOf_other hne key
  ranges := List.Perm.of_eq (ranges_releases h)
  edges := fun _ _ hwaiter hholder => hasEdge_releases h hwaiter hholder

/-- As many steps as there are: the others are spared, and the release is at the stage it says. -/
theorem runCall_releases (h : call.Releases) (hstage : t.ReleasedUpTo txnId call)
    (choices : List LockChoice) : Spares txnId t (t.runCall txnId call choices).1 ∧
      (t.runCall txnId call choices).1.ReleasedUpTo txnId (t.runCall txnId call choices).2 := by
  induction choices generalizing t call with
  | nil => exact ⟨Spares.refl txnId t, hstage⟩
  | cons choice rest ih =>
      obtain ⟨hspares, hlast⟩ := ih (releases_step h) (releasedUpTo_own hstage choice)
      exact ⟨(spares_step h).trans hspares, hlast⟩

end

/-! ## It comes to its end -/

theorem runCall_append (t : LockTable) (txnId : ℕ) (call : LockCall)
    (choices choices' : List LockChoice) : t.runCall txnId call (choices ++ choices') =
      (t.runCall txnId call choices).1.runCall txnId (t.runCall txnId call choices).2 choices' := by
  induction choices generalizing t call with
  | nil => rfl
  | cons choice rest ih => exact ih _ _

/-- When every key has been visited none is left to be visited. -/
theorem runCall_visits (t : LockTable) (txnId : ℕ) {order todo : List Bytes}
    (horder : order.Perm todo) (hkeys : ∀ key ∈ todo, key ∈ t.keyLocks) :
    (t.runCall txnId (.releaseKeys todo) (order.map .visit)).2 = .releaseKeys [] := by
  induction order generalizing t todo with
  | nil =>
      rw [List.nil_perm.mp horder]
      rfl
  | cons key rest ih =>
      have hmem : key ∈ todo := horder.mem_iff.mp (List.mem_cons_self ..)
      obtain ⟨e, hlookup⟩ := Option.isSome_iff_exists.mp (AList.lookup_isSome.mpr (hkeys key hmem))
      have hstep : t.step txnId (.visit key) (.releaseKeys todo) =
          (t.setEntry key (e.release txnId), .releaseKeys (todo.erase key)) := by
        rw [step]
        simp only [hlookup]
      rw [List.map_cons, runCall, hstep]
      apply ih
      · exact List.cons_perm_iff_perm_erase.mp horder |>.2
      · intro key' hkey'
        exact (AList.mem_insert _).mpr (Or.inr (hkeys key' (List.mem_of_mem_erase hkey')))

theorem releaseAll_done (t : LockTable) (txnId : ℕ) {order : List Bytes}
    (horder : order.Perm t.keyLocks.keys) : (t.releaseAll txnId order).2 = .done (.ok ()) := by
  have hvisits := t.runCall_visits txnId horder fun key hkey => AList.mem_keys.mpr hkey
  unfold releaseAll
  rw [runCall, runCall_append]
  simp only [step]
  rw [hvisits]
  rfl

end LockTable

namespace LockSystem

/-- In every state of a lock table, a release that is not interfered with comes to its end; then
nothing in the table mentions the transaction, and everything of the others is as it was. -/
theorem releaseAll_run (config : LockConfig) (steps : List LockStep) (txnId : ℕ)
    (order : List Bytes)
    (horder : order.Perm (Run.run step (init config) steps).table.keyLocks.keys) :
    ((Run.run step (init config) steps).table.releaseAll txnId order).2 = .done (.ok ()) ∧
      ((Run.run step (init config) steps).table.releaseAll txnId order).1.Gone txnId ∧
        LockTable.Spares txnId (Run.run step (init config) steps).table
          ((Run.run step (init config) steps).table.releaseAll txnId order).1 := by
  set t := (Run.run step (init config) steps).table
  have hdone := t.releaseAll_done txnId horder
  have hbegins : t.ReleasedUpTo txnId .releaseIter := trivial
  have hreleases : LockCall.Releases .releaseIter := trivial
  obtain ⟨hspares, hstage⟩ := LockTable.runCall_releases hreleases hbegins
    (.next :: (order.map .visit ++ [.next, .next, .next, .next, .next]))
  refine ⟨hdone, ?_, hspares⟩
  rw [LockTable.releaseAll] at hdone ⊢
  rw [hdone] at hstage
  exact hstage

/-- Two transactions hold a range each; the first has a key as well, and the second waits for
it. -/
def sharedTable : List LockStep :=
  called 1 (.registerTxn 1 0) 0 2 ++ called 2 (.registerTxn 2 0) 1 2 ++
    called 1 (.lockRange (.included [97]) (.included [98]) .s) 2 4 ++
    called 2 (.lockRange (.included [97]) (.included [99]) .is) 3 4 ++
    called 1 (.lockKey [107] .x) 4 5 ++ called 2 (.lockKey [107] .x) 5 6

theorem releaseAll_sharedTable :
    ((Run.run step (init LockConfig.default) sharedTable).table.releaseAll 1 [[107]]).2 =
        .done (.ok ()) ∧
      ((Run.run step (init LockConfig.default) sharedTable).table.releaseAll 1 [[107]]).1.Gone 1 ∧
        LockTable.Spares 1 (Run.run step (init LockConfig.default) sharedTable).table
          ((Run.run step (init LockConfig.default) sharedTable).table.releaseAll 1 [[107]]).1 :=
  releaseAll_run LockConfig.default sharedTable 1 [[107]] (by decide +kernel)

end LockSystem
end Crabstash

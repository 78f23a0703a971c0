import Crabstash.Lock.Exclusion
import Crabstash.Lock.Release
import Mathlib.Logic.Relation

/-!
# Waiting and the wait-for graph

A transaction that waits in `lock_key` should have an edge in the wait-for graph to every
transaction that stands in its way, so that a deadlock is a cycle of the graph.

The edges come from one look at the holders, before the wait begins.  Who gets the lock
later, be it another waiter or a newcomer, is not among them, and the loop of `acquire` does
not look at the graph again.  And edges go for other reasons than the end of this wait: a
second call of the same transaction takes away the edges it has in common with the first,
and `release_all` and `unregister_txn` take away all that begin or end at their transaction.

In terms of the graph, a step keeps it accurate exactly if it is noted (`Noted`): whoever gets
a lock has an edge from every other waiter that it will block, whoever begins to wait has its
edges, and edges are not taken away from a waiter that is still blocked by their end.  Which
runs are like that, in terms of what the calls have read, is said in `ReadHolders`.
-/

namespace Crabstash

namespace WaitForGraph

/-! ## Edges -/

/-- The waiter has an edge to the holder. -/
def HasEdge (g : WaitForGraph) (waiter holder : ℕ) : Prop :=
  holder ∈ (g.edges.lookup waiter).getD []

instance (g : WaitForGraph) (waiter holder : ℕ) : Decidable (g.HasEdge waiter holder) :=
  inferInstanceAs (Decidable (_ ∈ _))

section

variable {g : WaitForGraph} {waiter holder waiter' holder' : ℕ}

theorem hasEdge_addWaitEdge : (g.addWaitEdge waiter' holder').HasEdge waiter holder ↔
    g.HasEdge waiter holder ∨ waiter' ≠ holder' ∧ waiter = waiter' ∧ holder = holder' := by
  unfold WaitForGraph.addWaitEdge
  split
  · next hself => simp [hself]
  · next hne =>
      unfold HasEdge
      by_cases heq : waiter = waiter'
      · subst heq
        rw [AList.lookup_insert, Option.getD_some, List.mem_insert_iff]
        grind
      · rw [AList.lookup_insert_ne heq]
        grind

theorem HasEdge.addWaitEdge (h : g.HasEdge waiter holder) (waiter' holder' : ℕ) :
    (g.addWaitEdge waiter' holder').HasEdge waiter holder :=
  hasEdge_addWaitEdge.mpr (Or.inl h)

theorem HasEdge.addWaitEdges (h : g.HasEdge waiter holder) (waiter' : ℕ) (holders : List ℕ) :
    (holders.foldl (fun g holder => g.addWaitEdge waiter' holder) g).HasEdge waiter holder := by
  induction holders generalizing g with
  | nil => exact h
  | cons holder' rest ih => exact ih (h.addWaitEdge waiter' holder')

theorem hasEdge_removeWaitEdge : (g.removeWaitEdge waiter' holder').HasEdge waiter holder ↔
    g.HasEdge waiter holder ∧ ¬ (waiter = waiter' ∧ holder = holder') := by
  unfold WaitForGraph.removeWaitEdge
  cases hlookup : g.edges.lookup waiter' with
  | none =>
      constructor
      · intro h
        refine ⟨h, fun heq => ?_⟩
        unfold HasEdge at h
        rw [heq.1, hlookup] at h
        contradiction
      · exact fun h => h.1
  | some holders =>
      simp only
      by_cases heq : waiter = waiter'
      · subst heq
        -- whether the last edge has gone or not, the list decides
        have hold : g.HasEdge waiter holder ↔ holder ∈ holders := by
          unfold HasEdge
          rw [hlookup, Option.getD_some]
        have hnew : holder ∈ holders.filter (· != holder') ↔
            g.HasEdge waiter holder ∧ ¬ (waiter = waiter ∧ holder = holder') := by
          rw [hold, List.mem_filter]
          simp
        split
        · next hempty =>
            rw [List.isEmpty_iff] at hempty
            rw [← hnew, hempty]
            unfold HasEdge
            rw [AList.lookup_erase]
            rfl
        · rw [← hnew]
          unfold HasEdge
          rw [AList.lookup_insert, Option.getD_some]
      · have hother : g.HasEdge waiter holder ↔
            g.HasEdge waiter holder ∧ ¬ (waiter = waiter' ∧ holder = holder') := by
          simp [heq]
        rw [← hother]
        split
        · unfold HasEdge
          rw [AList.lookup_erase_ne heq]
        · unfold HasEdge
          rw [AList.lookup_insert_ne heq]

theorem hasEdge_removeWaitEdges (holders : List ℕ) :
    (holders.foldl (fun g holder => g.removeWaitEdge waiter' holder) g).HasEdge waiter holder ↔
      g.HasEdge waiter holder ∧ ¬ (waiter = waiter' ∧ holder ∈ holders) := by
  induction holders generalizing g with
  | nil => simp
  | cons holder' rest ih =>
      rw [List.foldl_cons, ih, hasEdge_removeWaitEdge, List.mem_cons]
      grind

theorem hasEdge_removeAllWaits : (g.removeAllWaits waiter').HasEdge waiter holder ↔
    g.HasEdge waiter holder ∧ waiter ≠ waiter' := by
  unfold HasEdge removeAllWaits
  by_cases heq : waiter = waiter'
  · subst heq
    rw [AList.lookup_erase]
    simp
  · rw [AList.lookup_erase_ne heq]
    simp [heq]

theorem hasEdge_unregisterTxn (txnId : ℕ) : (g.unregisterTxn txnId).HasEdge waiter holder ↔
    g.HasEdge waiter holder ∧ ¬ (waiter = txnId ∨ holder = txnId) := by
  unfold HasEdge
  rw [lookup_unregisterTxn]
  by_cases heq : waiter = txnId
  · subst heq
    rw [AList.lookup_erase]
    simp
  · rw [AList.lookup_erase_ne heq]
    cases g.edges.lookup waiter with
    | none => simp
    | some holders => simp [heq]

theorem HasEdge.incrementLockCount (h : g.HasEdge waiter holder) (txnId : ℕ) :
    (g.incrementLockCount txnId).HasEdge waiter holder := by
  unfold WaitForGraph.incrementLockCount
  split <;> exact h

end
end WaitForGraph

/-- A step of the call takes this edge away. -/
def LockCall.removes (txnId : ℕ) (call : LockCall) (waiter holder : ℕ) : Bool :=
  match call with
  | .keyUnwait _ holders _ => decide (waiter = txnId ∧ holder ∈ holders)
  | .releaseWaits => decide (waiter = txnId)
  | .unregisterGraph => decide (waiter = txnId ∨ holder = txnId)
  | _ => false

namespace LockTable

section

variable {t : LockTable} {txnId : ℕ} {call : LockCall} {waiter holder : ℕ}

theorem hasEdge_step (choice : LockChoice) (h : t.waiterGraph.HasEdge waiter holder)
    (hkept : call.removes txnId waiter holder = false) :
    (t.step txnId choice call).1.waiterGraph.HasEdge waiter holder := by
  rw [waiterGraph_step]
  cases call with
  | registerGraph startTs priority => exact h
  | keyEdges key mode holders => exact h.addWaitEdges txnId holders
  | keyUnwait key holders result =>
      exact (WaitForGraph.hasEdge_removeWaitEdges holders).mpr ⟨h, of_decide_eq_false hkept⟩
  | keyCount => exact h.incrementLockCount txnId
  | releaseWaits => exact WaitForGraph.hasEdge_removeAllWaits.mpr ⟨h, of_decide_eq_false hkept⟩
  | unregisterGraph =>
      exact (WaitForGraph.hasEdge_unregisterTxn txnId).mpr ⟨h, of_decide_eq_false hkept⟩
  | _ => exact h

theorem not_hasEdge_step (choice : LockChoice)
    (hremoved : call.removes txnId waiter holder = true) :
    ¬ (t.step txnId choice call).1.waiterGraph.HasEdge waiter holder := by
  rw [waiterGraph_step]
  intro h
  cases call with
  | keyUnwait key holders result =>
      exact ((WaitForGraph.hasEdge_removeWaitEdges holders).mp h).2 (of_decide_eq_true hremoved)
  | releaseWaits =>
      exact (WaitForGraph.hasEdge_removeAllWaits.mp h).2 (of_decide_eq_true hremoved)
  | unregisterGraph =>
      exact ((WaitForGraph.hasEdge_unregisterTxn txnId).mp h).2 (of_decide_eq_true hremoved)
  | _ => contradiction

/-! ## Who is in the way -/

/-- The transactions that keep a waiting call waiting: the holders of the key whose modes do not
go with the one it wants. -/
def blockers (t : LockTable) (txnId : ℕ) : LockCall → List ℕ
  | .keyWait key mode _ =>
      ((t.entry key).getHolders.filter fun h => h.1 != txnId && !mode.isCompatible h.2).map Prod.fst
  | _ => []

/-- Those that will be in the way of a call whose next step begins to wait. -/
def blockersAhead (t : LockTable) (txnId : ℕ) : LockCall → List ℕ
  | .keyAcquire key mode holders =>
      if ((t.entry key).tryAcquire txnId mode).1 then []
      else t.blockers txnId (.keyWait key mode holders)
  | _ => []

theorem mem_blockers {key : Bytes} {mode : LockMode} {holders : List ℕ} :
    holder ∈ t.blockers txnId (.keyWait key mode holders) ↔
      holder ≠ txnId ∧ ∃ mode', t.modeOf key holder = some mode' ∧
        mode.isCompatible mode' = false := by
  unfold blockers modeOf LockEntry.getMode LockEntry.getHolders
  simp only [List.mem_map, List.mem_filter, Bool.and_eq_true, bne_iff_ne, Bool.not_eq_true']
  constructor
  · rintro ⟨⟨txnId', mode'⟩, ⟨⟨e, he, heq⟩, hne, hincompatible⟩, rfl⟩
    obtain ⟨rfl, rfl⟩ := Prod.mk.inj heq
    exact ⟨hne, e.2, AList.mem_lookup_iff.mpr he, hincompatible⟩
  · rintro ⟨hne, mode', hmode, hincompatible⟩
    exact ⟨(holder, mode'), ⟨⟨⟨holder, mode'⟩, AList.mem_lookup_iff.mp hmode, rfl⟩, hne,
      hincompatible⟩, rfl⟩

/-- A step that grants a lock leaves the graph alone, and one that changes the graph grants
nothing. -/
theorem waiterGraph_of_grant {choice : LockChoice} {key : Bytes} {mode : LockMode}
    (hgrant : t.effect txnId choice call = .grant key mode) :
    (t.step txnId choice call).1.waiterGraph = t.waiterGraph := by
  rw [waiterGraph_step]
  cases call with
  | keyTry key' mode' => rfl
  | keyAcquire key' mode' holders => rfl
  | keyWait key' mode' holders => rfl
  | upgradeWait key' => rfl
  | releaseKeys todo => rfl
  | _ => contradiction

/-- Who holds a mode after a step has held it before, or it is what the step has granted. -/
theorem modeOf_step_cases {choice : LockChoice} {key : Bytes} {mode' : LockMode}
    (hmode : (t.step txnId choice call).1.modeOf key holder = some mode') :
    t.modeOf key holder = some mode' ∨
      (t.effect txnId choice call = .grant key mode' ∧ holder = txnId) := by
  rw [modeOf_step] at hmode
  cases heffect : t.effect txnId choice call with
  | grant key' mode =>
      rw [heffect] at hmode
      simp only at hmode
      split at hmode
      · next hself =>
          obtain rfl := Option.some.inj hmode
          exact Or.inr ⟨by rw [hself.1], hself.2⟩
      · exact Or.inl hmode
  | release key' =>
      rw [heffect] at hmode
      simp only at hmode
      split at hmode
      · contradiction
      · exact Or.inl hmode
  | none =>
      rw [heffect] at hmode
      exact Or.inl hmode
  | insertRange e =>
      rw [heffect] at hmode
      exact Or.inl hmode
  | removeRanges =>
      rw [heffect] at hmode
      exact Or.inl hmode

theorem modeOf_of_grant {choice : LockChoice} {key : Bytes} {mode : LockMode}
    (hgrant : t.effect txnId choice call = .grant key mode) :
    (t.step txnId choice call).1.modeOf key txnId = some mode := by
  rw [modeOf, entry_step, hgrant, entryAfter, if_pos rfl, LockEntry.getMode_insert, if_pos rfl]

/-- A step that takes edges away changes no entry. -/
theorem modeOf_of_removes {choice : LockChoice} (hremoved : call.removes txnId waiter holder = true)
    (key : Bytes) (txnId' : ℕ) :
    (t.step txnId choice call).1.modeOf key txnId' = t.modeOf key txnId' := by
  rw [modeOf, entry_step]
  cases call with
  | keyUnwait key' holders result => rfl
  | releaseWaits => rfl
  | unregisterGraph => rfl
  | _ => contradiction

/-- A call that waits after a step has begun to wait, or has waited before; the table is as it
was. -/
theorem of_step_keyWait {choice : LockChoice} {key : Bytes} {mode : LockMode} {holders : List ℕ}
    (hwait : (t.step txnId choice call).2 = .keyWait key mode holders) :
    (t.step txnId choice call).1 = t ∧
      ((call = .keyAcquire key mode holders ∧ ((t.entry key).tryAcquire txnId mode).1 = false) ∨
        call = .keyWait key mode holders) := by
  cases call with
  | keyAcquire key' mode' holders' =>
      rw [step] at hwait ⊢
      split at hwait
      · contradiction
      · next htry =>
          -- the first try has failed, and has changed nothing
          obtain ⟨rfl, rfl, rfl⟩ := LockCall.keyWait.inj hwait
          rw [htry]
          exact ⟨rfl, Or.inl ⟨rfl, rfl⟩⟩
  | keyWait key' mode' holders' =>
      rw [step] at hwait ⊢
      split at hwait
      · contradiction
      · next hnext =>
          rw [if_neg hnext]
          split at hwait
          · contradiction
          · exact ⟨rfl, Or.inr hwait⟩
  | keyRange key' mode' => rw [step] at hwait; split at hwait <;> contradiction
  | keyEntry key' mode' => rw [step] at hwait; split at hwait <;> contradiction
  | keyTry key' mode' => rw [step] at hwait; split at hwait <;> contradiction
  | keyUnwait key' holders' result => cases result <;> contradiction
  | keyRecord key' => rw [step] at hwait; split at hwait <;> contradiction
  | keyEscalate =>
      rw [step] at hwait
      split at hwait
      · contradiction
      · simp only at hwait
        split at hwait <;> contradiction
  | rangeCheck start last mode' escalating =>
      rw [step] at hwait
      split at hwait
      · cases escalating <;> contradiction
      · split at hwait
        · cases escalating <;> contradiction
        · contradiction
  | rangeScan start last mode' escalating todo =>
      cases choice <;> simp only [step] at hwait <;> split at hwait <;>
        cases escalating <;> contradiction
  | rangeInsert start last mode' escalating => cases escalating <;> contradiction
  | upgradeGet key' => rw [step] at hwait; split at hwait <;> contradiction
  | upgradeCheck key' => rw [step] at hwait; split at hwait <;> contradiction
  | upgradeWait key' =>
      rw [step] at hwait
      split at hwait
      · contradiction
      · split at hwait <;> contradiction
  | releaseKeys todo => cases choice <;> simp only [step] at hwait <;> split at hwait <;> contradiction
  | _ => contradiction

end

end LockTable

/-! ## The system -/

namespace LockSystem

/-- The transaction waits in `lock_key`, for a key that the other holds in a mode that does not
go with the one it wants. -/
def Blocked (s : LockSystem) (txnId holder : ℕ) : Prop :=
  ∃ callId key mode holders, s.calls.lookup callId = some (txnId, .keyWait key mode holders) ∧
    holder ≠ txnId ∧ ∃ mode', s.table.modeOf key holder = some mode' ∧
      mode.isCompatible mode' = false

/-- Every waiting transaction has edges to all that are in its way. -/
def Accurate (s : LockSystem) : Prop :=
  ∀ txnId holder, s.Blocked txnId holder → s.table.waiterGraph.HasEdge txnId holder

/-! ### The condition -/

/-- Another call waits for the key in a mode that does not go with the one that is granted. -/
def waitsFor (key : Bytes) (mode' : LockMode) : LockCall → Bool
  | .keyWait key' mode _ => key' == key && !mode.isCompatible mode'
  | _ => false

/-- Whoever will be blocked by the transaction that gets a lock has an edge to it. -/
def GrantNoted (s : LockSystem) (txnId : ℕ) : LockEffect → Prop
  | .grant key mode' =>
      ∀ e ∈ s.calls.entries, e.2.1 ≠ txnId → waitsFor key mode' e.2.2 = true →
        s.table.waiterGraph.HasEdge e.2.1 txnId
  | _ => True

/-- A call that begins to wait has edges to all that are in its way. -/
def WaitNoted (s : LockSystem) (txnId : ℕ) (call : LockCall) : Prop :=
  ∀ holder ∈ s.table.blockersAhead txnId call, s.table.waiterGraph.HasEdge txnId holder

/-- An edge is not taken away from a call that waits for its end. -/
def RemovalNoted (s : LockSystem) (txnId : ℕ) (call : LockCall) : Prop :=
  ∀ e ∈ s.calls.entries, ∀ holder ∈ s.table.blockers e.2.1 e.2.2,
    call.removes txnId e.2.1 holder = false

/-- What a step needs so that the graph is accurate after it: for a grant, for a wait, and for
a removal of edges. -/
structure Noted (s : LockSystem) (txnId : ℕ) (choice : LockChoice) (call : LockCall) : Prop where
  grant : s.GrantNoted txnId (s.table.effect txnId choice call)
  wait : s.WaitNoted txnId call
  removal : s.RemovalNoted txnId call

/-- The step is noted in the graph. -/
def NotedStep (s : LockSystem) : LockStep → Prop
  | .call _ _ => True
  | .advance callId choice =>
      ∀ call ∈ s.calls.lookup callId, s.Noted call.1 choice call.2

instance (s : LockSystem) (txnId : ℕ) (effect : LockEffect) :
    Decidable (s.GrantNoted txnId effect) :=
  match effect with
  | .grant _ _ => inferInstanceAs (Decidable (∀ e ∈ s.calls.entries, _ → _ → _))
  | .none => inferInstanceAs (Decidable True)
  | .insertRange _ => inferInstanceAs (Decidable True)
  | .release _ => inferInstanceAs (Decidable True)
  | .removeRanges => inferInstanceAs (Decidable True)

instance (s : LockSystem) (txnId : ℕ) (call : LockCall) : Decidable (s.WaitNoted txnId call) :=
  inferInstanceAs (Decidable (∀ holder ∈ _, _))

instance (s : LockSystem) (txnId : ℕ) (call : LockCall) : Decidable (s.RemovalNoted txnId call) :=
  inferInstanceAs (Decidable (∀ e ∈ s.calls.entries, ∀ holder ∈ _, _))

instance (s : LockSystem) (txnId : ℕ) (choice : LockChoice) (call : LockCall) :
    Decidable (s.Noted txnId choice call) :=
  decidable_of_iff (s.GrantNoted txnId (s.table.effect txnId choice call) ∧
    s.WaitNoted txnId call ∧ s.RemovalNoted txnId call)
    ⟨fun h => ⟨h.1, h.2.1, h.2.2⟩, fun h => ⟨h.grant, h.wait, h.removal⟩⟩

instance (s : LockSystem) (action : LockStep) : Decidable (s.NotedStep action) :=
  match action with
  | .call _ _ => inferInstanceAs (Decidable True)
  | .advance callId choice =>
      inferInstanceAs (Decidable (∀ call ∈ s.calls.lookup callId, s.Noted call.1 choice call.2))

section

variable {s : LockSystem} {txnId holder : ℕ}

theorem mem_calls {callId : ℕ} {call : ℕ × LockCall} (h : s.calls.lookup callId = some call) :
    (⟨callId, call⟩ : Sigma fun _ : ℕ => ℕ × LockCall) ∈ s.calls.entries :=
  AList.mem_lookup_iff.mp h

/-- What is kept of the edges of those who wait. -/
theorem RemovalNoted.kept {call : LockCall} (h : s.RemovalNoted txnId call) {waiter : ℕ}
    (hblocked : s.Blocked waiter holder) : call.removes txnId waiter holder = false := by
  obtain ⟨callId, key, mode, holders, hlookup, hblocks⟩ := hblocked
  exact h _ (mem_calls hlookup) holder (LockTable.mem_blockers.mpr hblocks)

theorem accurate_init (config : LockConfig) : (init config).Accurate := by
  rintro txnId holder ⟨callId, key, mode, holders, hlookup, -⟩
  contradiction

/-- A call that begins does not wait. -/
theorem call_ne_keyWait (request : LockRequest) (key : Bytes) (mode : LockMode)
    (holders : List ℕ) : request.call ≠ .keyWait key mode holders := by
  cases request <;> simp [LockRequest.call]

theorem Accurate.call (h : s.Accurate) (txnId : ℕ) (request : LockRequest) :
    (s.step (.call txnId request)).Accurate := by
  rintro waiter holder ⟨callId, key, mode, holders, hlookup, hblocks⟩
  have hlookup : (s.calls.insert s.nextCallId (txnId, request.call)).lookup callId =
      some (waiter, .keyWait key mode holders) := hlookup
  by_cases heq : callId = s.nextCallId
  · rw [heq, AList.lookup_insert] at hlookup
    have hcall := (Prod.mk.inj (Option.some.inj hlookup)).2
    exact absurd hcall (call_ne_keyWait request key mode holders)
  · rw [AList.lookup_insert_ne heq] at hlookup
    exact h waiter holder ⟨callId, key, mode, holders, hlookup, hblocks⟩

/-- What an advance leaves of the system. -/
theorem step_advance {callId : ℕ} {call : LockCall}
    (hcall : s.calls.lookup callId = some (txnId, call)) (choice : LockChoice) :
    s.step (.advance callId choice) =
      { s with
        table := (s.table.step txnId choice call).1
        calls := s.calls.insert callId (txnId, (s.table.step txnId choice call).2) } := by
  rw [step, hcall]

/-- A step of a call keeps the graph accurate if it is noted. -/
theorem Accurate.advance (h : s.Accurate) {callId : ℕ} {call : LockCall}
    (hcall : s.calls.lookup callId = some (txnId, call)) {choice : LockChoice}
    (hnoted : s.Noted txnId choice call) : (s.step (.advance callId choice)).Accurate := by
  rw [step_advance hcall]
  rintro waiter holder ⟨callId', key, mode, holders, hnext, hne, mode', hmodeNext, hincompatible⟩
  have hlookup : (s.calls.insert callId (txnId, (s.table.step txnId choice call).2)).lookup
      callId' = some (waiter, .keyWait key mode holders) := hnext
  have hmode : (s.table.step txnId choice call).1.modeOf key holder = some mode' := hmodeNext
  show (s.table.step txnId choice call).1.waiterGraph.HasEdge waiter holder
  by_cases heq : callId' = callId
  · -- the call waits itself, and has changed nothing
    rw [heq, AList.lookup_insert] at hlookup
    obtain ⟨rfl, hwait⟩ := Prod.mk.inj (Option.some.inj hlookup)
    obtain ⟨htable, ⟨rfl, htry⟩ | rfl⟩ := LockTable.of_step_keyWait hwait
    · rw [htable] at hmode ⊢
      have hblocks : holder ∈ s.table.blockers txnId (.keyWait key mode holders) :=
        LockTable.mem_blockers.mpr ⟨hne, mode', hmode, hincompatible⟩
      apply hnoted.wait holder
      rw [LockTable.blockersAhead, htry]
      exact hblocks
    · rw [htable] at hmode ⊢
      exact h txnId holder ⟨callId, key, mode, holders, hcall, hne, mode', hmode, hincompatible⟩
  · rw [AList.lookup_insert_ne heq] at hlookup
    rcases LockTable.modeOf_step_cases hmode with hold | ⟨hgrant, rfl⟩
    · have hblocked : s.Blocked waiter holder :=
        ⟨callId', key, mode, holders, hlookup, hne, mode', hold, hincompatible⟩
      exact LockTable.hasEdge_step choice (h waiter holder hblocked) (hnoted.removal.kept hblocked)
    · rw [LockTable.waiterGraph_of_grant hgrant]
      have hgranted := hnoted.grant
      rw [hgrant] at hgranted
      have hwaits : waitsFor key mode' (.keyWait key mode holders) = true := by
        simp [waitsFor, hincompatible]
      exact hgranted ⟨callId', waiter, .keyWait key mode holders⟩ (mem_calls hlookup) hne.symm
        hwaits

section

variable {callId : ℕ} {call : LockCall} {choice : LockChoice}

/-- Another call waits on, and blocked after the step it has an edge. -/
theorem Accurate.hasEdge_of_other (hcall : s.calls.lookup callId = some (txnId, call))
    (h : (s.step (.advance callId choice)).Accurate) {callId' waiter : ℕ} {key : Bytes}
    {mode mode' : LockMode} {holders : List ℕ}
    (hlookup : s.calls.lookup callId' = some (waiter, .keyWait key mode holders))
    (hother : callId' ≠ callId) (hne : holder ≠ waiter)
    (hmode : (s.table.step txnId choice call).1.modeOf key holder = some mode')
    (hincompatible : mode.isCompatible mode' = false) :
    (s.table.step txnId choice call).1.waiterGraph.HasEdge waiter holder := by
  rw [step_advance hcall choice] at h
  exact h waiter holder ⟨callId', key, mode, holders, (AList.lookup_insert_ne hother).trans hlookup,
    hne, mode', hmode, hincompatible⟩

theorem Accurate.grantNoted (hcall : s.calls.lookup callId = some (txnId, call))
    (h : (s.step (.advance callId choice)).Accurate) :
    s.GrantNoted txnId (s.table.effect txnId choice call) := by
  cases heffect : s.table.effect txnId choice call with
  | grant key mode' =>
      rintro ⟨callId', waiter, waiting⟩ hmem hne hwaits
      cases waiting with
      | keyWait key' mode holders =>
          obtain ⟨rfl, hincompatible⟩ := by simpa [waitsFor] using hwaits
          have hlookup : s.calls.lookup callId' = some (waiter, .keyWait key' mode holders) :=
            AList.mem_lookup_iff.mpr hmem
          have hother : callId' ≠ callId := by
            rintro rfl
            rw [hcall] at hlookup
            exact hne (Prod.mk.inj (Option.some.inj hlookup)).1.symm
          have hedge := h.hasEdge_of_other hcall hlookup hother hne.symm
            (LockTable.modeOf_of_grant heffect) hincompatible
          rwa [LockTable.waiterGraph_of_grant heffect] at hedge
      | _ => contradiction
  | none => trivial
  | insertRange e => trivial
  | release key => trivial
  | removeRanges => trivial

theorem Accurate.waitNoted (hcall : s.calls.lookup callId = some (txnId, call))
    (h : (s.step (.advance callId choice)).Accurate) : s.WaitNoted txnId call := by
  intro holder hholder
  rw [step_advance hcall choice] at h
  cases call with
  | keyAcquire key mode holders =>
      rw [LockTable.blockersAhead] at hholder
      split at hholder
      · contradiction
      · next htry =>
          obtain ⟨hne, hblocks⟩ := LockTable.mem_blockers.mp hholder
          have hstep : s.table.step txnId choice (.keyAcquire key mode holders) =
              (s.table, .keyWait key mode holders) := by
            rw [LockTable.step]
            split
            · next heq =>
                rw [heq] at htry
                contradiction
            · rfl
          rw [hstep] at h
          exact h txnId holder ⟨callId, key, mode, holders, AList.lookup_insert _, hne, hblocks⟩
  | _ => contradiction

theorem Accurate.removalNoted (hcall : s.calls.lookup callId = some (txnId, call))
    (h : (s.step (.advance callId choice)).Accurate) : s.RemovalNoted txnId call := by
  rintro ⟨callId', waiter, waiting⟩ hmem holder hholder
  cases waiting with
  | keyWait key mode holders =>
      obtain ⟨hne, mode', hmode, hincompatible⟩ := LockTable.mem_blockers.mp hholder
      have hlookup : s.calls.lookup callId' = some (waiter, .keyWait key mode holders) :=
        AList.mem_lookup_iff.mpr hmem
      by_contra hremoves
      have hremoved : call.removes txnId waiter holder = true := by simpa using hremoves
      have hother : callId' ≠ callId := by
        rintro rfl
        rw [hcall] at hlookup
        obtain ⟨-, rfl⟩ := Prod.mk.inj (Option.some.inj hlookup)
        contradiction
      have hedge := h.hasEdge_of_other hcall hlookup hother hne
        ((LockTable.modeOf_of_removes hremoved key holder).trans hmode) hincompatible
      exact LockTable.not_hasEdge_step choice hremoved hedge
  | _ => contradiction

/-- A step that is not noted leaves a waiting transaction without an edge. -/
theorem Accurate.noted (hcall : s.calls.lookup callId = some (txnId, call))
    (h : (s.step (.advance callId choice)).Accurate) : s.Noted txnId choice call :=
  ⟨h.grantNoted hcall, h.waitNoted hcall, h.removalNoted hcall⟩

end

theorem Accurate.step (h : s.Accurate) {action : LockStep} (hnoted : s.NotedStep action) :
    (s.step action).Accurate := by
  cases action with
  | call txnId request => exact h.call txnId request
  | advance callId choice =>
      cases hcall : s.calls.lookup callId with
      | none =>
          rw [LockSystem.step, hcall]
          exact h
      | some call => exact h.advance hcall (hnoted call hcall)

end

end LockSystem
end Crabstash

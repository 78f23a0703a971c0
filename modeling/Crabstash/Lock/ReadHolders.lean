import Crabstash.Lock.WaitFor

/-!
# The holders that a call has read

`lock_key` reads the holders of the key, adds an edge to each, and waits.  Its edges are those
to the holders it has read, as long as nobody takes them away.

So the graph is accurate in a run in which nobody else gets in the way of a call
(`ReadNoted`): who gets a lock is one of the holders that every other call has read that it will
block, who begins to wait has read all that are in its way, and the edge is still there, that
is, no step has taken it away since (`removedBy`); and no step takes an edge away from a call
that waits for its end.

The edges themselves are no part of the condition.  That they are in the graph comes from the
steps of the calls (`Edged`): the one after the reading adds them, and no step but those that
are recorded takes them away.
-/

namespace Crabstash

open Run

theorem WaitForGraph.hasEdge_addWaitEdges {waiter holder : ℕ} {holders : List ℕ}
    (hmem : holder ∈ holders) (hne : holder ≠ waiter) (g : WaitForGraph) :
    (holders.foldl (fun g holder => g.addWaitEdge waiter holder) g).HasEdge waiter holder := by
  induction holders generalizing g with
  | nil => contradiction
  | cons holder' rest ih =>
      rcases List.mem_cons.mp hmem with rfl | hrest
      · have hadded : (g.addWaitEdge waiter holder).HasEdge waiter holder :=
          hasEdge_addWaitEdge.mpr (Or.inr ⟨hne.symm, rfl, rfl⟩)
        exact hadded.addWaitEdges waiter rest
      · exact ih hrest (g.addWaitEdge waiter holder')

/-- The holders that a call has read and has added edges to. -/
def LockCall.holdersRead : LockCall → List ℕ
  | .keyAcquire _ _ holders => holders
  | .keyWait _ _ holders => holders
  | _ => []

namespace LockTable

variable {t : LockTable} {txnId : ℕ} {call : LockCall}

/-- A call that is about to try for the lock has just added its edges. -/
theorem of_step_keyAcquire {choice : LockChoice} {key : Bytes} {mode : LockMode}
    {holders : List ℕ} (hnext : (t.step txnId choice call).2 = .keyAcquire key mode holders) :
    call = .keyEdges key mode holders := by
  cases call with
  | keyEdges key' mode' holders' =>
      obtain ⟨rfl, rfl, rfl⟩ := LockCall.keyAcquire.inj hnext
      rfl
  | keyUnwait key' holders' result => cases result <;> contradiction
  | rangeScan start last mode' escalating todo => cases choice <;> grind [step, rangeDone]
  | releaseKeys todo => cases choice <;> grind [step]
  | _ => grind [step, rangeDone]

/-- The holders that a call has read: it has just added the edges to them, or it had read them
before, and then its step has left the graph alone. -/
theorem mem_holdersRead_step {choice : LockChoice} {holder : ℕ}
    (hread : holder ∈ (t.step txnId choice call).2.holdersRead) :
    (∃ key mode holders, call = .keyEdges key mode holders ∧ holder ∈ holders) ∨
      holder ∈ call.holdersRead ∧ (t.step txnId choice call).1.waiterGraph = t.waiterGraph := by
  cases hnext : (t.step txnId choice call).2 with
  | keyAcquire key mode holders =>
      rw [hnext] at hread
      exact Or.inl ⟨key, mode, holders, of_step_keyAcquire hnext, hread⟩
  | keyWait key mode holders =>
      rw [hnext] at hread
      obtain ⟨htable, ⟨rfl, -⟩ | rfl⟩ := of_step_keyWait hnext
      · exact Or.inr ⟨hread, by rw [htable]⟩
      · exact Or.inr ⟨hread, by rw [htable]⟩
  | _ =>
      rw [hnext] at hread
      contradiction

end LockTable

/-! ## The edges that have been taken away -/

/-- The edge to a holder that a call has read, taken away from it. -/
structure LostEdge where
  callId : ℕ
  holder : ℕ
  deriving DecidableEq

/-- The edges that a step takes away from the calls. -/
def LockSystem.removedBy (s : LockSystem) : LockStep → List LostEdge
  | .call _ _ => []
  | .advance callId _ =>
      match s.calls.lookup callId with
      | none => []
      | some (txnId, call) =>
          s.calls.entries.flatMap fun e =>
            (e.2.2.holdersRead.filter fun holder => call.removes txnId e.2.1 holder).map
              fun holder => { callId := e.1, holder }

/-- The system, and the edges of its calls that have been taken away so far. -/
structure EdgeHistory where
  system : LockSystem
  removed : List LostEdge

namespace EdgeHistory

/-- A new lock table, and nothing has been removed from the graph. -/
def init (config : LockConfig) : EdgeHistory := { system := LockSystem.init config, removed := [] }

/-- The system after the step, with the edges that the step has taken out of the graph. -/
def step (h : EdgeHistory) (action : LockStep) : EdgeHistory :=
  { system := h.system.step action, removed := h.removed ++ h.system.removedBy action }

theorem system_run (h : EdgeHistory) (steps : List LockStep) :
    (run step h steps).system = run LockSystem.step h.system steps := by
  induction steps generalizing h with
  | nil => rfl
  | cons action rest ih => exact ih (h.step action)

/-- The holders that a call has read, less those it has lost its edge to. -/
def noted (h : EdgeHistory) (callId : ℕ) (call : LockCall) : List ℕ :=
  call.holdersRead.filter fun holder => { callId, holder } ∉ h.removed

/-! ## The condition -/

/-- Whoever gets a lock has been read by every other call that it will block. -/
def GrantRead (h : EdgeHistory) (txnId : ℕ) : LockEffect → Prop
  | .grant key mode' =>
      ∀ e ∈ h.system.calls.entries, e.2.1 ≠ txnId → LockSystem.waitsFor key mode' e.2.2 = true →
        txnId ∈ h.noted e.1 e.2.2
  | _ => True

/-- A call that begins to wait has read all that are in its way. -/
def WaitRead (h : EdgeHistory) (callId txnId : ℕ) (call : LockCall) : Prop :=
  ∀ holder ∈ h.system.table.blockersAhead txnId call, holder ∈ h.noted callId call

/-- What a step has to have read: for a lock it grants, for a wait it begins, and for edges it
takes out. -/
structure ReadNoted (h : EdgeHistory) (callId txnId : ℕ) (choice : LockChoice)
    (call : LockCall) : Prop where
  grant : h.GrantRead txnId (h.system.table.effect txnId choice call)
  wait : h.WaitRead callId txnId call
  removal : h.system.RemovalNoted txnId call

/-- The condition on the step of a run: what its call goes by is still so. -/
def ReadStep (h : EdgeHistory) : LockStep → Prop
  | .call _ _ => True
  | .advance callId choice =>
      ∀ call ∈ h.system.calls.lookup callId, h.ReadNoted callId call.1 choice call.2

instance (h : EdgeHistory) (txnId : ℕ) (effect : LockEffect) : Decidable (h.GrantRead txnId effect) :=
  match effect with
  | .grant _ _ => inferInstanceAs (Decidable (∀ e ∈ h.system.calls.entries, _ → _ → _))
  | .none => inferInstanceAs (Decidable True)
  | .insertRange _ => inferInstanceAs (Decidable True)
  | .release _ => inferInstanceAs (Decidable True)
  | .removeRanges => inferInstanceAs (Decidable True)

instance (h : EdgeHistory) (callId txnId : ℕ) (call : LockCall) :
    Decidable (h.WaitRead callId txnId call) :=
  inferInstanceAs (Decidable (∀ holder ∈ _, _))

instance (h : EdgeHistory) (callId txnId : ℕ) (choice : LockChoice) (call : LockCall) :
    Decidable (h.ReadNoted callId txnId choice call) :=
  decidable_of_iff (h.GrantRead txnId (h.system.table.effect txnId choice call) ∧
    h.WaitRead callId txnId call ∧ h.system.RemovalNoted txnId call)
    ⟨fun h => ⟨h.1, h.2.1, h.2.2⟩, fun h => ⟨h.grant, h.wait, h.removal⟩⟩

instance (h : EdgeHistory) (action : LockStep) : Decidable (h.ReadStep action) :=
  match action with
  | .call _ _ => inferInstanceAs (Decidable True)
  | .advance callId choice =>
      inferInstanceAs (Decidable (∀ call ∈ h.system.calls.lookup callId,
        h.ReadNoted callId call.1 choice call.2))

/-! ## The edges are there -/

/-- Every call has edges to the holders that it has read and not lost. -/
def Edged (h : EdgeHistory) : Prop :=
  ∀ callId txnId call, h.system.calls.lookup callId = some (txnId, call) →
    ∀ holder ∈ h.noted callId call, holder ≠ txnId →
      h.system.table.waiterGraph.HasEdge txnId holder

section

variable {h : EdgeHistory}

theorem edged_init (config : LockConfig) : (init config).Edged := by
  intro callId txnId call hlookup
  contradiction

theorem mem_noted {callId holder : ℕ} {call : LockCall} :
    holder ∈ h.noted callId call ↔ holder ∈ call.holdersRead ∧ { callId, holder } ∉ h.removed := by
  rw [noted, List.mem_filter, decide_eq_true_eq]

/-- An edge of another call that is not lost in a step has not been taken away by it. -/
theorem kept_of_noted {callId txnId : ℕ} {call : LockCall}
    (hcall : h.system.calls.lookup callId = some (txnId, call)) {choice : LockChoice}
    {callId' waiter holder : ℕ} {waiting : LockCall}
    (hlookup : h.system.calls.lookup callId' = some (waiter, waiting))
    (hnoted : holder ∈ (h.step (.advance callId choice)).noted callId' waiting) :
    holder ∈ h.noted callId' waiting ∧ call.removes txnId waiter holder = false := by
  obtain ⟨hread, hkept⟩ := mem_noted.mp hnoted
  have hremoved : { callId := callId', holder } ∉
      h.removed ++ h.system.removedBy (.advance callId choice) := hkept
  rw [List.mem_append, not_or] at hremoved
  refine ⟨mem_noted.mpr ⟨hread, hremoved.1⟩, ?_⟩
  by_contra htaken
  apply hremoved.2
  rw [LockSystem.removedBy, hcall]
  refine List.mem_flatMap.mpr ⟨_, LockSystem.mem_calls hlookup, List.mem_map.mpr ⟨holder, ?_, rfl⟩⟩
  exact List.mem_filter.mpr ⟨hread, by simpa using htaken⟩

theorem Edged.advance (hedged : h.Edged) {callId txnId : ℕ} {call : LockCall}
    (hcall : h.system.calls.lookup callId = some (txnId, call)) (choice : LockChoice) :
    (h.step (.advance callId choice)).Edged := by
  have hsystem := LockSystem.step_advance hcall choice
  intro callId' waiter waiting hnext holder hnoted hne
  have hlookup : (h.system.step (.advance callId choice)).calls.lookup callId' =
      some (waiter, waiting) := hnext
  show (h.system.step (.advance callId choice)).table.waiterGraph.HasEdge waiter holder
  rw [hsystem] at hlookup ⊢
  by_cases heq : callId' = callId
  · subst heq
    rw [AList.lookup_insert] at hlookup
    obtain ⟨rfl, rfl⟩ := Prod.mk.inj (Option.some.inj hlookup)
    obtain ⟨hread, hkept⟩ := mem_noted.mp hnoted
    rcases LockTable.mem_holdersRead_step hread with
      ⟨key, mode, holders, rfl, hmem⟩ | ⟨hold, hgraph⟩
    · -- the step that adds the edges
      exact WaitForGraph.hasEdge_addWaitEdges hmem hne h.system.table.waiterGraph
    · have hremoved : { callId := callId', holder } ∉ h.removed := fun hmem =>
        hkept (List.mem_append_left _ hmem)
      show (h.system.table.step txnId choice call).1.waiterGraph.HasEdge txnId holder
      rw [hgraph]
      exact hedged callId' txnId call hcall holder (mem_noted.mpr ⟨hold, hremoved⟩) hne
  · rw [AList.lookup_insert_ne heq] at hlookup
    obtain ⟨hold, hkept⟩ := kept_of_noted hcall hlookup hnoted
    exact LockTable.hasEdge_step choice (hedged callId' waiter waiting hlookup holder hold hne) hkept

/-- A call that begins has read nothing yet. -/
theorem holdersRead_call (request : LockRequest) : request.call.holdersRead = [] := by
  cases request <;> rfl

theorem Edged.call (hedged : h.Edged) (txnId : ℕ) (request : LockRequest) :
    (h.step (.call txnId request)).Edged := by
  intro callId waiter waiting hnext holder hnoted hne
  have hlookup : (h.system.calls.insert h.system.nextCallId (txnId, request.call)).lookup callId =
      some (waiter, waiting) := hnext
  obtain ⟨hread, hkept⟩ := mem_noted.mp hnoted
  by_cases heq : callId = h.system.nextCallId
  · rw [heq, AList.lookup_insert] at hlookup
    obtain ⟨-, rfl⟩ := Prod.mk.inj (Option.some.inj hlookup)
    rw [holdersRead_call] at hread
    contradiction
  · rw [AList.lookup_insert_ne heq] at hlookup
    have hremoved : { callId, holder } ∉ h.removed := fun hmem =>
      hkept (List.mem_append_left _ hmem)
    exact hedged callId waiter waiting hlookup holder (mem_noted.mpr ⟨hread, hremoved⟩) hne

theorem Edged.step (hedged : h.Edged) (action : LockStep) : (h.step action).Edged := by
  cases action with
  | call txnId request => exact hedged.call txnId request
  | advance callId choice =>
      cases hcall : h.system.calls.lookup callId with
      | none =>
          have hsystem : h.system.step (.advance callId choice) = h.system := by
            rw [LockSystem.step, hcall]
          have hremoved : h.system.removedBy (.advance callId choice) = [] := by
            rw [LockSystem.removedBy, hcall]
          rw [EdgeHistory.step, hsystem, hremoved, List.append_nil]
          exact hedged
      | some call => exact hedged.advance hcall choice

/-- In terms of the graph: the edges to the holders that have been read are there. -/
theorem ReadNoted.noted {callId txnId : ℕ} {choice : LockChoice} {call : LockCall}
    (hread : h.ReadNoted callId txnId choice call) (hedged : h.Edged)
    (hcall : h.system.calls.lookup callId = some (txnId, call)) :
    h.system.Noted txnId choice call := by
  refine ⟨?_, fun holder hholder => ?_, hread.removal⟩
  · have hgrant := hread.grant
    cases heffect : h.system.table.effect txnId choice call with
    | grant key mode' =>
        rw [heffect] at hgrant
        intro e he hne hwaits
        exact hedged e.1 e.2.1 e.2.2 (AList.mem_lookup_iff.mpr he) txnId (hgrant e he hne hwaits)
          hne.symm
    | none => trivial
    | insertRange e => trivial
    | release key => trivial
    | removeRanges => trivial
  · have hne : holder ≠ txnId := by
      cases call with
      | keyAcquire key mode holders =>
          rw [LockTable.blockersAhead] at hholder
          split at hholder
          · contradiction
          · exact (LockTable.mem_blockers.mp hholder).1
      | _ => contradiction
    exact hedged callId txnId call hcall holder (hread.wait holder hholder) hne

theorem ReadStep.notedStep {action : LockStep} (hread : h.ReadStep action) (hedged : h.Edged) :
    h.system.NotedStep action := by
  cases action with
  | call txnId request => trivial
  | advance callId choice => exact fun call hcall => (hread call hcall).noted hedged hcall

end

/-- In every run in which nobody gets in the way of a call but the holders it has read, and no
edge to one of them is taken away, every transaction that waits for a key has edges to all that
are in its way, and a deadlock among waiting transactions is a cycle of the graph. -/
theorem accurate_run (config : LockConfig) (steps : List LockStep)
    (hsteps : Along step ReadStep (init config) steps) :
    (run LockSystem.step (LockSystem.init config) steps).Accurate ∧
      ∀ txnId,
        Relation.TransGen (run LockSystem.step (LockSystem.init config) steps).Blocked txnId txnId →
          Relation.TransGen
            (run LockSystem.step (LockSystem.init config) steps).table.waiterGraph.HasEdge
              txnId txnId := by
  have hsound : (run step (init config) steps).Edged ∧
      (run step (init config) steps).system.Accurate := by
    refine hsteps.invariant (fun h => h.Edged ∧ h.system.Accurate) ?_
      ⟨edged_init config, LockSystem.accurate_init config⟩
    exact fun h action ⟨hedged, haccurate⟩ hread =>
      ⟨hedged.step action, haccurate.step (hread.notedStep hedged)⟩
  have haccurate := hsound.2
  rw [system_run] at haccurate
  exact ⟨haccurate, fun txnId hcycle => Relation.TransGen.mono haccurate _ _ hcycle⟩

/-! ## Who comes next -/

open LockSystem (advances called)

/-- Three transactions register; the first locks the key and the second waits for it. -/
def secondWaits : List LockStep :=
  (List.range 3).flatMap (fun i => called (i + 1) (.registerTxn i 0) i 2) ++
    called 1 (.lockKey [107] .x) 3 5 ++ called 2 (.lockKey [107] .x) 4 6

/-- The first releases the key, and the second gets it. -/
def handedOn (callId : ℕ) : List LockStep :=
  [LockStep.call 1 .releaseAll] ++ advances callId 1 ++ [LockStep.advance callId (.visit [107])] ++ advances 4 1

/-- The third waits when the second has got the lock. -/
def waitsOnce : List LockStep :=
  secondWaits ++ handedOn 5 ++ called 3 (.lockKey [107] .x) 6 6

theorem accurate_waitsOnce :
    (run LockSystem.step (LockSystem.init LockConfig.default) waitsOnce).Accurate ∧
      ∀ txnId,
        Relation.TransGen
            (run LockSystem.step (LockSystem.init LockConfig.default) waitsOnce).Blocked
              txnId txnId →
          Relation.TransGen
            (run LockSystem.step (LockSystem.init LockConfig.default)
              waitsOnce).table.waiterGraph.HasEdge txnId txnId :=
  accurate_run LockConfig.default waitsOnce (by decide +kernel)

/-- The third waits too when the second gets the lock. -/
def waitsOn : List LockStep :=
  secondWaits ++ called 3 (.lockKey [107] .x) 5 6 ++ handedOn 6

theorem not_accurate_waitsOn :
    ¬ (run LockSystem.step (LockSystem.init LockConfig.default) waitsOn).Accurate := by
  intro h
  have hblocked :
      (run LockSystem.step (LockSystem.init LockConfig.default) waitsOn).Blocked 3 2 :=
    ⟨5, [107], .x, [1], by decide +kernel, by decide, .x, by decide +kernel, rfl⟩
  exact absurd (h 3 2 hblocked) (by decide +kernel)

end EdgeHistory
end Crabstash

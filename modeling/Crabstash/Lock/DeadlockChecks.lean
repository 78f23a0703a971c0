import Crabstash.Lock.Deadlock
import Crabstash.Lock.LockCounts

/-!
# The thread of the detector

`DeadlockDetector::start` makes a thread that looks at the wait-for graph again and again and
sends the victim it finds over a channel.  The graph belongs to the lock table, so the thread
runs beside the calls (`DetectorSystem`).

What is sent is right: a victim has been on a cycle when it was sent, and a thread does not
die of a search (`aborts_run`).  But the receiver is handed out and nobody in the lock table
acts on it, and the thread does not remember what it has sent.  Transactions of which each
waits for another one are still there after any steps in which none of them gives up its wait
or takes another step; so every check sends a victim again (`aborts_growing_run`).
-/

namespace Crabstash

/-! ## The detector -/

/-- Who has the receiver of the channel. -/
inductive ReceiverPlace where
  | table
  | taken
  | dropped
  deriving DecidableEq, Repr

/-- The lock system, the threads of the detector, and the channel, oldest message first. -/
structure DetectorSystem where
  locks : LockSystem
  shutdown : Bool
  threads : ℕ
  receiver : ReceiverPlace
  aborts : List ℕ

/-- A round of a thread comes to the keys and holders of the graph in some order. -/
inductive DetectorStep where
  | locks (action : LockStep)
  | start
  | check (order : ∀ g : WaitForGraph, g.IterationOrder)
  | stop
  | getAbortReceiver
  | receive
  | dropReceiver

namespace DetectorSystem

/-- A new lock table, no detector thread, and the receiver still in the table. -/
def init (config : LockConfig) : DetectorSystem :=
  { locks := LockSystem.init config, shutdown := false, threads := 0, receiver := .table
    aborts := [] }

/-- The wait-for graph that the detector threads share with the table. -/
def graph (s : DetectorSystem) : WaitForGraph := s.locks.table.waiterGraph

/-- The result of `send` is not looked at. -/
def send (s : DetectorSystem) (victims : List ℕ) : DetectorSystem :=
  if s.receiver = .dropped then s else { s with aborts := s.aborts ++ victims }

/-- A round of the loop in `start`; afterwards the flag is looked at. -/
def check (s : DetectorSystem) (order : ∀ g : WaitForGraph, g.IterationOrder) :
    DetectorSystem :=
  match s.threads with
  | 0 => s
  | others + 1 =>
      match s.graph.detectDeadlock (order s.graph) with
      -- a panic ends the thread
      | none => { s with threads := others }
      | some result =>
          { s.send (result.getD []) with threads := if s.shutdown then others else others + 1 }

/-- The system after a step of the table, of a detector thread or of the receiver. -/
def step (s : DetectorSystem) : DetectorStep → DetectorSystem
  | .locks action => { s with locks := s.locks.step action }
  -- a thread that finds the flag set ends before its first round
  | .start => { s with threads := if s.shutdown then s.threads else s.threads + 1 }
  | .check order => s.check order
  | .stop => { s with shutdown := true }
  | .getAbortReceiver => { s with receiver := if s.receiver = .table then .taken else s.receiver }
  | .receive => if s.receiver = .taken then { s with aborts := s.aborts.tail } else s
  | .dropReceiver =>
      if s.receiver = .taken then { s with receiver := .dropped, aborts := [] } else s

end DetectorSystem

/-- The step starts a detector thread. -/
def DetectorStep.isStart : DetectorStep → Bool
  | start => true
  | _ => false

/-- The step is a check of the graph. -/
def DetectorStep.isCheck : DetectorStep → Bool
  | check _ => true
  | _ => false

/-! ## The graph of the lock table -/

/-- Nobody waits for itself. -/
def WaitForGraph.Loopless (g : WaitForGraph) : Prop := ∀ v, ¬g.HasEdge v v

namespace WaitForGraph

variable {g : WaitForGraph}

theorem Loopless.addWaitEdges (h : g.Loopless) (waiter : ℕ) (holders : List ℕ) :
    (holders.foldl (fun g holder => g.addWaitEdge waiter holder) g).Loopless := by
  induction holders generalizing g with
  | nil => exact h
  | cons holder rest ih => exact ih (loopless_step h (.addWaitEdge waiter holder))

theorem Loopless.removeWaitEdges (h : g.Loopless) (waiter : ℕ) (holders : List ℕ) :
    (holders.foldl (fun g holder => g.removeWaitEdge waiter holder) g).Loopless :=
  fun v hedge => h v ((hasEdge_removeWaitEdges holders).mp hedge).1

end WaitForGraph

namespace LockTable

variable {t : LockTable} {txnId holder : ℕ} {choice : LockChoice} {call : LockCall}

theorem loopless_step (h : t.waiterGraph.Loopless) (txnId : ℕ) (choice : LockChoice)
    (call : LockCall) : (t.step txnId choice call).1.waiterGraph.Loopless := by
  rw [waiterGraph_step]
  cases call with
  | registerGraph startTs priority =>
      exact WaitForGraph.loopless_step h (.registerTxn txnId startTs priority)
  | keyEdges key mode holders => exact h.addWaitEdges txnId holders
  | keyUnwait key holders result => exact h.removeWaitEdges txnId holders
  | keyCount => exact WaitForGraph.loopless_step h (.incrementLockCount txnId)
  | releaseWaits => exact WaitForGraph.loopless_step h (.removeAllWaits txnId)
  | unregisterGraph => exact WaitForGraph.loopless_step h (.unregisterTxn txnId)
  | _ => exact h

/-- A waiting call that somebody is in the way of goes on waiting. -/
theorem step_of_blocked (hblocks : holder ∈ t.blockers txnId call) (hchoice : choice ≠ .timeout) :
    t.step txnId choice call = (t, call) := by
  cases call with
  | keyWait key mode holders =>
      obtain ⟨hne, mode', hmode, hincompatible⟩ := mem_blockers.mp hblocks
      have hrefused : (t.entry key).isCompatibleWithHolders txnId mode = false := by
        by_contra hgranted
        rw [Bool.not_eq_false, LockEntry.isCompatibleWithHolders_iff] at hgranted
        rcases hgranted holder mode' hmode with heq | hcompatible
        · exact hne heq
        · rw [hincompatible] at hcompatible
          contradiction
      rw [step, if_neg hchoice, LockEntry.acquireTurn, hrefused]
      rfl
  | _ => exact absurd hblocks List.not_mem_nil

/-- Only its own steps change what a transaction holds. -/
theorem modeOf_step_of_ne (hne : holder ≠ txnId) (key : Bytes) :
    (t.step txnId choice call).1.modeOf key holder = t.modeOf key holder := by
  rw [modeOf_step]
  cases t.effect txnId choice call with
  | grant key' mode => exact if_neg fun h => hne h.2
  | release key' => exact if_neg fun h => hne h.2
  | _ => rfl

theorem removes_of_ne {waiter : ℕ} (hwaiter : waiter ≠ txnId) (hholder : holder ≠ txnId) :
    call.removes txnId waiter holder = false := by
  cases call with
  | keyUnwait key holders result => exact decide_eq_false fun h => hwaiter h.1
  | releaseWaits => exact decide_eq_false hwaiter
  | unregisterGraph => exact decide_eq_false fun h => h.elim hwaiter hholder
  | _ => rfl

end LockTable

/-! ## A deadlock stays -/

namespace LockSystem

variable {s : LockSystem} {members : Finset ℕ}

/-- Each of these transactions waits for another one of them, and the graph says so. -/
def Deadlocked (s : LockSystem) (members : Finset ℕ) : Prop :=
  ∀ txnId ∈ members, ∃ holder ∈ members,
    s.Blocked txnId holder ∧ s.table.waiterGraph.HasEdge txnId holder

theorem Accurate.deadlocked (h : s.Accurate)
    (hblocked : ∀ txnId ∈ members, ∃ holder ∈ members, s.Blocked txnId holder) :
    s.Deadlocked members := by
  intro txnId htxn
  obtain ⟨holder, hholder, hblocks⟩ := hblocked txnId htxn
  exact ⟨holder, hholder, hblocks, h txnId holder hblocks⟩

/-- The step is not one of a member, or it is a turn of a wait in which another member is in
the way and the time is not over. -/
def StaysBlocked (members : Finset ℕ) (s : LockSystem) : LockStep → Prop
  | .call _ _ => True
  | .advance callId choice =>
      ∀ call ∈ s.calls.lookup callId, call.1 ∈ members →
        choice ≠ .timeout ∧ ∃ holder ∈ s.table.blockers call.1 call.2, holder ∈ members

instance (members : Finset ℕ) (s : LockSystem) (action : LockStep) :
    Decidable (StaysBlocked members s action) :=
  match action with
  | .call _ _ => inferInstanceAs (Decidable True)
  | .advance callId choice =>
      inferInstanceAs (Decidable (∀ call ∈ s.calls.lookup callId, call.1 ∈ members →
        choice ≠ .timeout ∧ ∃ holder ∈ s.table.blockers call.1 call.2, holder ∈ members))

/-- A call that begins gets a number of its own. -/
def Fresh (s : LockSystem) : Prop :=
  ∀ callId, s.nextCallId ≤ callId → s.calls.lookup callId = none

theorem Fresh.step (h : s.Fresh) (action : LockStep) : (s.step action).Fresh := by
  cases action with
  | call txnId request => exact fresh_request h txnId request
  | advance callId choice =>
      cases hcall : s.calls.lookup callId with
      | none =>
          rw [LockSystem.step, hcall]
          exact h
      | some call =>
          rw [step_advance hcall]
          exact fresh_advanced h hcall choice

theorem loopless_step (h : s.table.waiterGraph.Loopless) (action : LockStep) :
    (s.step action).table.waiterGraph.Loopless := by
  cases action with
  | call txnId request => exact h
  | advance callId choice =>
      cases hcall : s.calls.lookup callId with
      | none =>
          rw [step, hcall]
          exact h
      | some call =>
          rw [step_advance hcall]
          exact LockTable.loopless_step h call.1 choice call.2

theorem Deadlocked.call (h : s.Deadlocked members) (hfresh : s.Fresh) (txnId : ℕ)
    (request : LockRequest) : (s.step (.call txnId request)).Deadlocked members := by
  intro waiter hwaiter
  obtain ⟨holder, hholder, ⟨callId, key, mode, holders, hlookup, hblocks⟩, hedge⟩ := h waiter hwaiter
  exact ⟨holder, hholder, ⟨callId, key, mode, holders,
    lookup_request hfresh hlookup txnId request, hblocks⟩, hedge⟩

/-- A member is turned down and leaves everything as it is; another transaction neither touches
what the members hold nor the edges between them. -/
theorem Deadlocked.advance (h : s.Deadlocked members) {callId : ℕ} {choice : LockChoice}
    (hstays : StaysBlocked members s (.advance callId choice)) :
    (s.step (.advance callId choice)).Deadlocked members := by
  cases hcall : s.calls.lookup callId with
  | none =>
      rw [step, hcall]
      exact h
  | some call =>
      obtain ⟨actor, call⟩ := call
      rw [step_advance hcall]
      by_cases hactor : actor ∈ members
      · obtain ⟨hchoice, other, hother, -⟩ := hstays (actor, call) hcall hactor
        rw [LockTable.step_of_blocked hother hchoice]
        intro waiter hwaiter
        obtain ⟨holder, hholder, ⟨callId', key, mode, holders, hlookup, hblocks⟩, hedge⟩ :=
          h waiter hwaiter
        refine ⟨holder, hholder, ⟨callId', key, mode, holders, ?_, hblocks⟩, hedge⟩
        by_cases heq : callId' = callId
        · rw [heq, hcall] at hlookup
          rw [heq]
          exact (AList.lookup_insert _).trans hlookup
        · exact (AList.lookup_insert_ne heq).trans hlookup
      · intro waiter hwaiter
        obtain ⟨holder, hholder, ⟨callId', key, mode, holders, hlookup, hne, mode', hmode,
          hincompatible⟩, hedge⟩ := h waiter hwaiter
        have hwaiterNe : waiter ≠ actor := fun heq => hactor (heq ▸ hwaiter)
        have hholderNe : holder ≠ actor := fun heq => hactor (heq ▸ hholder)
        refine ⟨holder, hholder, ⟨callId', key, mode, holders,
          lookup_advanced hcall hlookup hwaiterNe choice, hne, mode', ?_, hincompatible⟩, ?_⟩
        · exact (LockTable.modeOf_step_of_ne hholderNe key).trans hmode
        · exact LockTable.hasEdge_step choice hedge (LockTable.removes_of_ne hwaiterNe hholderNe)

theorem Deadlocked.step (h : s.Deadlocked members) (hfresh : s.Fresh) {action : LockStep}
    (hstays : StaysBlocked members s action) : (s.step action).Deadlocked members := by
  cases action with
  | call txnId request => exact h.call hfresh txnId request
  | advance callId choice => exact h.advance hstays

/-- The graph has a cycle, which the detector can find. -/
theorem Deadlocked.exists_onCycle (h : s.Deadlocked members) (hne : members.Nonempty) :
    ∃ txnId, s.table.waiterGraph.OnCycle txnId := by
  apply StrongComponents.exists_transGen_self hne
  intro txnId htxn
  obtain ⟨holder, hholder, -, hedge⟩ := h txnId htxn
  exact ⟨holder, hholder, hedge⟩

end LockSystem

/-! ## The channel -/

namespace DetectorSystem

section

variable {s : DetectorSystem} {members : Finset ℕ}

theorem locks_check (order : ∀ g : WaitForGraph, g.IterationOrder) :
    (s.check order).locks = s.locks ∧ (s.check order).shutdown = s.shutdown ∧
      (s.check order).receiver = s.receiver := by
  unfold check send
  split
  · exact ⟨rfl, rfl, rfl⟩
  · split
    · exact ⟨rfl, rfl, rfl⟩
    · split <;> exact ⟨rfl, rfl, rfl⟩

/-- A round of a thread sends a victim if there is a cycle, and else nothing; the thread goes on
unless it is told not to. -/
theorem check_spec (hloopless : s.graph.Loopless) (hthreads : 0 < s.threads)
    (order : ∀ g : WaitForGraph, g.IterationOrder) :
    (s.check order).threads = (if s.shutdown then s.threads - 1 else s.threads) ∧
      ((¬∃ txnId, s.graph.OnCycle txnId) → (s.check order).aborts = s.aborts) ∧
      ((∃ txnId, s.graph.OnCycle txnId) → ∃ victim, s.graph.OnCycle victim ∧
        (s.check order).aborts =
          if s.receiver = .dropped then s.aborts else s.aborts ++ [victim]) := by
  obtain ⟨result, hdetect, hnone, hvictims⟩ :=
    s.graph.detectDeadlock_spec hloopless (order s.graph)
  obtain ⟨others, hothers⟩ : ∃ others, s.threads = others + 1 := ⟨s.threads - 1, by omega⟩
  have hcheck : s.check order = { s.send (result.getD []) with
      threads := if s.shutdown then others else others + 1 } := by
    rw [check, hothers, hdetect]
  rw [hcheck]
  refine ⟨?_, ?_, ?_⟩
  · rw [hothers, Nat.add_sub_cancel]
  · intro hfree
    rw [hnone.mpr hfree]
    show (s.send []).aborts = s.aborts
    unfold send
    split
    · rfl
    · exact List.append_nil _
  · intro hcycle
    obtain ⟨victims, hsome⟩ := Option.ne_none_iff_exists'.mp fun heq => hnone.mp heq hcycle
    obtain ⟨victim, rfl, hvictim, -⟩ := hvictims victims hsome
    refine ⟨victim, hvictim, ?_⟩
    rw [hsome]
    show (s.send [victim]).aborts = _
    unfold send
    split <;> rfl

/-! ## One step -/

/-- The detector only reads the lock system. -/
theorem locks_step (s : DetectorSystem) (action : DetectorStep) :
    (∃ call, action = .locks call) ∨ (s.step action).locks = s.locks := by
  cases action with
  | locks call => exact Or.inl ⟨call, rfl⟩
  | check order => exact Or.inr (locks_check order).1
  | receive =>
      right
      rw [step]
      split <;> rfl
  | dropReceiver =>
      right
      rw [step]
      split <;> rfl
  | _ => exact Or.inr rfl

theorem loopless_step (h : s.graph.Loopless) (action : DetectorStep) :
    (s.step action).graph.Loopless := by
  unfold graph at h ⊢
  rcases s.locks_step action with ⟨call, rfl⟩ | hlocks
  · exact LockSystem.loopless_step h call
  · rw [hlocks]
    exact h

/-- As long as nobody stops the detector, every thread that has been started is there. -/
theorem threads_step (hloopless : s.graph.Loopless) {action : DetectorStep}
    (hrunning : (s.step action).shutdown = false) :
    s.shutdown = false ∧ (s.step action).threads = s.threads + action.isStart.toNat := by
  cases action with
  | locks action => exact ⟨hrunning, rfl⟩
  | start =>
      have hrunning : s.shutdown = false := hrunning
      refine ⟨hrunning, ?_⟩
      rw [step, hrunning]
      rfl
  | check order =>
      rw [step, (locks_check order).2.1] at hrunning
      refine ⟨hrunning, ?_⟩
      -- the graph has no loops, so the search ends and the thread goes on
      rcases Nat.eq_zero_or_pos s.threads with hzero | hpos
      · rw [step, check, hzero]
        exact hzero
      · rw [step, (check_spec hloopless hpos order).1, hrunning]
        rfl
  | stop => contradiction
  | getAbortReceiver => exact ⟨hrunning, rfl⟩
  | receive =>
      rw [step] at hrunning ⊢
      by_cases htaken : s.receiver = .taken
      · rw [if_pos htaken] at hrunning ⊢
        exact ⟨hrunning, rfl⟩
      · rw [if_neg htaken] at hrunning ⊢
        exact ⟨hrunning, rfl⟩
  | dropReceiver =>
      rw [step] at hrunning ⊢
      by_cases htaken : s.receiver = .taken
      · rw [if_pos htaken] at hrunning ⊢
        exact ⟨hrunning, rfl⟩
      · rw [if_neg htaken] at hrunning ⊢
        exact ⟨hrunning, rfl⟩

/-- What is in the channel after a step has been there before, or is on a cycle now. -/
theorem mem_aborts_step (hloopless : s.graph.Loopless) {action : DetectorStep} {victim : ℕ}
    (hvictim : victim ∈ (s.step action).aborts) : victim ∈ s.aborts ∨ s.graph.OnCycle victim := by
  cases action with
  | check order =>
      rcases Nat.eq_zero_or_pos s.threads with hzero | hpos
      · rw [step, check, hzero] at hvictim
        exact Or.inl hvictim
      · obtain ⟨-, hquiet, hsends⟩ := check_spec hloopless hpos order
        by_cases hcycle : ∃ txnId, s.graph.OnCycle txnId
        · obtain ⟨found, hfound, haborts⟩ := hsends hcycle
          rw [step, haborts] at hvictim
          split at hvictim
          · exact Or.inl hvictim
          · rcases List.mem_append.mp hvictim with hold | hnew
            · exact Or.inl hold
            · rw [List.mem_singleton.mp hnew]
              exact Or.inr hfound
        · rw [step, hquiet hcycle] at hvictim
          exact Or.inl hvictim
  | receive =>
      rw [step] at hvictim
      split at hvictim
      · exact Or.inl (List.mem_of_mem_tail hvictim)
      · exact Or.inl hvictim
  | dropReceiver =>
      rw [step] at hvictim
      split at hvictim
      · contradiction
      · exact Or.inl hvictim
  | _ => exact Or.inl hvictim

end

/-! ## Runs -/

theorem loopless_run (config : LockConfig) (steps : List DetectorStep) :
    (Run.run step (init config) steps).graph.Loopless :=
  Run.invariant (fun s : DetectorSystem => s.graph.Loopless) (fun _ action h => loopless_step h action)
    (fun _ => List.not_mem_nil) steps

/-- After any run of the calls and the detector, whatever the order of its searches: a check of
the graph does not panic, no thread has died of one, every victim in the channel was on a cycle of
the graph at an earlier moment, and if there is a cycle now the next check sends a victim. -/
theorem aborts_run (config : LockConfig) (steps : List DetectorStep) :
    let s := Run.run step (init config) steps
    (∀ order : s.graph.IterationOrder, s.graph.detectDeadlock order ≠ none) ∧
      (s.shutdown = false → s.threads = steps.countP DetectorStep.isStart) ∧
      (∀ victim ∈ s.aborts, ∃ n < steps.length,
        (Run.run step (init config) (steps.take n)).graph.OnCycle victim) ∧
      ∀ order, 0 < s.threads → s.receiver ≠ .dropped → (∃ txnId, s.graph.OnCycle txnId) →
        ∃ victim, s.graph.OnCycle victim ∧
          (s.step (.check order)).aborts = s.aborts ++ [victim] := by
  intro s
  refine ⟨?_, ?_, ?_, ?_⟩
  · intro order hpanics
    -- the search ends on every graph without loops
    obtain ⟨result, hdetect, -⟩ := s.graph.detectDeadlock_spec (loopless_run config steps) order
    rw [hpanics] at hdetect
    contradiction
  · show (Run.run step (init config) steps).shutdown = false →
      (Run.run step (init config) steps).threads = _
    -- threads come by `start` and would only go by a panic
    induction steps using List.reverseRecOn with
    | nil => exact fun _ => rfl
    | append_singleton steps action ih =>
        rw [Run.run_append]
        intro hrunning
        obtain ⟨hbefore, hthreads⟩ := threads_step (loopless_run config steps) hrunning
        have hcount : [action].countP DetectorStep.isStart = action.isStart.toNat := by
          cases action <;> rfl
        rw [List.countP_append, ← ih hbefore, hcount]
        exact hthreads
  · show ∀ victim ∈ (Run.run step (init config) steps).aborts, _
    induction steps using List.reverseRecOn with
    | nil => exact fun _ h => absurd h List.not_mem_nil
    | append_singleton steps action ih =>
        intro victim hvictim
        rw [Run.run_append] at hvictim
        rw [List.length_append, List.length_singleton]
        -- a victim of this step was on a cycle before it
        rcases mem_aborts_step (loopless_run config steps) hvictim with hold | hcycle
        · obtain ⟨n, hn, hfound⟩ := ih victim hold
          refine ⟨n, by omega, ?_⟩
          rwa [List.take_append_of_le_length hn.le]
        · refine ⟨steps.length, by omega, ?_⟩
          rwa [List.take_left]
  · intro order hthreads hreceiver hcycle
    obtain ⟨-, -, hsends⟩ := check_spec (loopless_run config steps) hthreads order
    obtain ⟨victim, hvictim, haborts⟩ := hsends hcycle
    rw [if_neg hreceiver] at haborts
    exact ⟨victim, hvictim, haborts⟩

/-- The steps of the calls are noted in the graph. -/
def NotedStep (s : DetectorSystem) : DetectorStep → Prop
  | .locks action => s.locks.NotedStep action
  | _ => True

instance (s : DetectorSystem) (action : DetectorStep) : Decidable (s.NotedStep action) :=
  match action with
  | .locks action => inferInstanceAs (Decidable (s.locks.NotedStep action))
  | .start => inferInstanceAs (Decidable True)
  | .check _ => inferInstanceAs (Decidable True)
  | .stop => inferInstanceAs (Decidable True)
  | .getAbortReceiver => inferInstanceAs (Decidable True)
  | .receive => inferInstanceAs (Decidable True)
  | .dropReceiver => inferInstanceAs (Decidable True)

/-- No member of the deadlock gives up or takes another step, whatever the detector does. -/
def Stays (members : Finset ℕ) (s : DetectorSystem) : DetectorStep → Prop
  | .locks action => LockSystem.StaysBlocked members s.locks action
  | _ => True

/-- No member of the deadlock gives up or takes another step, and nobody takes a message or
stops the detector. -/
def Undisturbed (members : Finset ℕ) (s : DetectorSystem) : DetectorStep → Prop
  | .locks action => LockSystem.StaysBlocked members s.locks action
  | .start => True
  | .check _ => True
  | .getAbortReceiver => True
  | _ => False

instance (members : Finset ℕ) (s : DetectorSystem) (action : DetectorStep) :
    Decidable (Undisturbed members s action) :=
  match action with
  | .locks action => inferInstanceAs (Decidable (LockSystem.StaysBlocked members s.locks action))
  | .start => inferInstanceAs (Decidable True)
  | .check _ => inferInstanceAs (Decidable True)
  | .stop => inferInstanceAs (Decidable False)
  | .getAbortReceiver => inferInstanceAs (Decidable True)
  | .receive => inferInstanceAs (Decidable False)
  | .dropReceiver => inferInstanceAs (Decidable False)

/-- Some transactions are in a deadlock. -/
structure Stuck (members : Finset ℕ) (s : DetectorSystem) : Prop where
  deadlocked : s.locks.Deadlocked members
  fresh : s.locks.Fresh

/-- The detector runs beside a deadlock. -/
structure Watched (members : Finset ℕ) (s : DetectorSystem) : Prop where
  stuck : Stuck members s
  loopless : s.graph.Loopless
  running : s.shutdown = false
  threads : 0 < s.threads
  receiver : s.receiver ≠ .dropped

section

variable {s : DetectorSystem} {members : Finset ℕ}

/-- The deadlock goes on. -/
theorem Stuck.step (h : Stuck members s) {action : DetectorStep} (hstays : Stays members s action) :
    Stuck members (s.step action) := by
  rcases s.locks_step action with ⟨call, rfl⟩ | hlocks
  · exact ⟨h.deadlocked.step h.fresh hstays, h.fresh.step call⟩
  · obtain ⟨hdeadlocked, hfresh⟩ := h
    rw [← hlocks] at hdeadlocked hfresh
    exact ⟨hdeadlocked, hfresh⟩

theorem Stuck.run (h : Stuck members s) {steps : List DetectorStep}
    (hsteps : Run.Along DetectorSystem.step (Stays members) s steps) :
    Stuck members (Run.run DetectorSystem.step s steps) :=
  hsteps.invariant (Stuck members) (fun _ _ h hstays => h.step hstays) h

theorem stays_of_undisturbed {action : DetectorStep} (h : Undisturbed members s action) :
    Stays members s action := by
  cases action with
  | locks action => exact h
  | _ => trivial

/-- If the step is a check one more victim is sent. -/
theorem Watched.step (h : s.Watched members) (hne : members.Nonempty) {action : DetectorStep}
    (hstays : Undisturbed members s action) :
    (s.step action).Watched members ∧ ∃ victims, victims.length = action.isCheck.toNat ∧
      (s.step action).aborts = s.aborts ++ victims := by
  have hnothing : ∃ victims : List ℕ, victims.length = 0 ∧ s.aborts = s.aborts ++ victims :=
    ⟨[], rfl, (List.append_nil _).symm⟩
  have hstuck := h.stuck.step (stays_of_undisturbed hstays)
  have hloopless := loopless_step h.loopless action
  cases action with
  | locks action => exact ⟨⟨hstuck, hloopless, h.running, h.threads, h.receiver⟩, hnothing⟩
  | start =>
      refine ⟨⟨hstuck, hloopless, h.running, ?_, h.receiver⟩, hnothing⟩
      show 0 < if s.shutdown then s.threads else s.threads + 1
      rw [h.running]
      exact Nat.succ_pos _
  | check order =>
      -- the deadlock is still there, so the check finds a cycle and sends its victim
      obtain ⟨hthreads, -, hsends⟩ := check_spec h.loopless h.threads order
      obtain ⟨-, hshutdown, hreceiver⟩ := s.locks_check order
      obtain ⟨victim, -, haborts⟩ := hsends (h.stuck.deadlocked.exists_onCycle hne)
      rw [if_neg h.receiver] at haborts
      refine ⟨⟨hstuck, hloopless, ?_, ?_, ?_⟩, [victim], rfl, haborts⟩
      · exact hshutdown.trans h.running
      · show 0 < (s.check order).threads
        rw [hthreads, h.running]
        exact h.threads
      · show (s.check order).receiver ≠ .dropped
        rw [hreceiver]
        exact h.receiver
  | getAbortReceiver =>
      refine ⟨⟨hstuck, hloopless, h.running, h.threads, ?_⟩, hnothing⟩
      show (if s.receiver = .table then ReceiverPlace.taken else s.receiver) ≠ .dropped
      split
      · exact ReceiverPlace.noConfusion
      · exact h.receiver
  | stop => exact hstays.elim
  | receive => exact hstays.elim
  | dropReceiver => exact hstays.elim

theorem Watched.run (h : s.Watched members) (hne : members.Nonempty) {steps : List DetectorStep}
    (hsteps : Run.Along DetectorSystem.step (Undisturbed members) s steps) :
    (Run.run DetectorSystem.step s steps).Watched members ∧ ∃ victims,
      victims.length = steps.countP DetectorStep.isCheck ∧
        (Run.run DetectorSystem.step s steps).aborts = s.aborts ++ victims := by
  induction steps generalizing s with
  | nil => exact ⟨h, [], rfl, (List.append_nil _).symm⟩
  | cons action steps ih =>
      obtain ⟨hnext, first, hfirst, hsent⟩ := h.step hne hsteps.1
      obtain ⟨hlast, others, hothers, hsent'⟩ := ih hnext hsteps.2
      refine ⟨hlast, first ++ others, ?_, ?_⟩
      · have hcount : [action].countP DetectorStep.isCheck = action.isCheck.toNat := by
          cases action <;> rfl
        calc (first ++ others).length
            = action.isCheck.toNat + steps.countP DetectorStep.isCheck := by
              rw [List.length_append, hfirst, hothers]
          _ = (action :: steps).countP DetectorStep.isCheck := by
              rw [← hcount, ← List.countP_append]
              rfl
      · rw [Run.run_cons, hsent', hsent, List.append_assoc]

end

theorem accurate_of_along (config : LockConfig) {steps : List DetectorStep}
    (hsteps : Run.Along step NotedStep (init config) steps) :
    (Run.run step (init config) steps).locks.Accurate := by
  refine hsteps.invariant (fun s => s.locks.Accurate) ?_ (LockSystem.accurate_init config)
  intro s action h hnoted
  rcases s.locks_step action with ⟨call, rfl⟩ | hlocks
  · exact h.step hnoted
  · rw [hlocks]
    exact h

theorem fresh_run (config : LockConfig) (steps : List DetectorStep) :
    (Run.run step (init config) steps).locks.Fresh := by
  refine Run.invariant (fun s : DetectorSystem => s.locks.Fresh) ?_ (fun _ _ => rfl) steps
  intro s action h
  rcases s.locks_step action with ⟨call, rfl⟩ | hlocks
  · exact h.step call
  · rw [hlocks]
    exact h

theorem stuck_run (config : LockConfig) {steps : List DetectorStep} {members : Finset ℕ}
    (hsteps : Run.Along step NotedStep (init config) steps)
    (hblocked : ∀ txnId ∈ members, ∃ holder ∈ members,
      (Run.run step (init config) steps).locks.Blocked txnId holder) :
    Stuck members (Run.run step (init config) steps) :=
  ⟨(accurate_of_along config hsteps).deadlocked hblocked, fresh_run config steps⟩

/-- After a run whose steps are noted, let some transactions wait for each other.  As long as none
of them gives up or lets go they wait for each other still, whether or not there is a detector and
whatever becomes of what it sends. -/
theorem blocked_run (config : LockConfig) (steps more : List DetectorStep) (members : Finset ℕ)
    (hsteps : Run.Along step NotedStep (init config) steps)
    (hblocked : ∀ txnId ∈ members, ∃ holder ∈ members,
      (Run.run step (init config) steps).locks.Blocked txnId holder)
    (hmore : Run.Along step (Stays members) (Run.run step (init config) steps) more) :
    ∀ txnId ∈ members, ∃ holder ∈ members,
      (Run.run step (init config) (steps ++ more)).locks.Blocked txnId holder := by
  intro txnId htxn
  have hafter := (stuck_run config hsteps hblocked).run hmore
  obtain ⟨holder, hholder, hblocks, -⟩ := hafter.deadlocked txnId htxn
  rw [Run.run_append]
  exact ⟨holder, hholder, hblocks⟩

/-- After a run whose steps are noted, let some transactions wait for each other while the
detector runs.  However long it goes on without one of them giving up or letting go, they wait
for each other still, and every check has sent a victim. -/
theorem aborts_growing_run (config : LockConfig) (steps more : List DetectorStep)
    (members : Finset ℕ) (hne : members.Nonempty)
    (hsteps : Run.Along step NotedStep (init config) steps)
    (hblocked : ∀ txnId ∈ members, ∃ holder ∈ members,
      (Run.run step (init config) steps).locks.Blocked txnId holder)
    (hrunning : (Run.run step (init config) steps).shutdown = false)
    (hthreads : 0 < (Run.run step (init config) steps).threads)
    (hreceiver : (Run.run step (init config) steps).receiver ≠ .dropped)
    (hmore : Run.Along step (Undisturbed members) (Run.run step (init config) steps) more) :
    let s := Run.run step (init config) (steps ++ more)
    (∀ txnId ∈ members, ∃ holder ∈ members, s.locks.Blocked txnId holder) ∧
      ∃ victims, victims.length = more.countP DetectorStep.isCheck ∧
        s.aborts = (Run.run step (init config) steps).aborts ++ victims := by
  intro s
  have hwatched : (Run.run step (init config) steps).Watched members :=
    ⟨stuck_run config hsteps hblocked, loopless_run config steps, hrunning, hthreads, hreceiver⟩
  have hstays : Run.Along step (Stays members) (Run.run step (init config) steps) more :=
    hmore.imp fun _ _ => stays_of_undisturbed
  refine ⟨blocked_run config steps more members hsteps hblocked hstays, ?_⟩
  have hs : s = Run.run step (Run.run step (init config) steps) more := Run.run_append _ _ _
  rw [hs]
  exact (hwatched.run hne hmore).2

/-- Two transactions lock a key each, and then each waits for the other's. -/
def lockEachOther : List LockStep :=
  LockSystem.called 1 (.registerTxn 10 0) 0 2 ++
    LockSystem.called 2 (.registerTxn 20 0) 1 2 ++
    LockSystem.called 1 (.lockKey [107] .x) 2 5 ++
    LockSystem.called 2 (.lockKey [108] .x) 3 5 ++
    LockSystem.called 1 (.lockKey [108] .x) 4 6 ++
    LockSystem.called 2 (.lockKey [107] .x) 5 6

/-- A detector beside two transactions that wait for each other. -/
def eachWaits : List DetectorStep := .start :: lockEachOther.map .locks

/-- Three checks, between which the waiting calls wake up in vain. -/
def threeChecks : List DetectorStep :=
  [.check fun _ => default, .locks (.advance 4 .next), .check fun _ => default,
    .locks (.advance 5 .next), .check fun _ => default]

theorem aborts_growing_eachWaits :
    let s := Run.run step (init LockConfig.default) (eachWaits ++ threeChecks)
    (∀ txnId ∈ ({1, 2} : Finset ℕ), ∃ holder ∈ ({1, 2} : Finset ℕ),
        s.locks.Blocked txnId holder) ∧
      ∃ victims, victims.length = threeChecks.countP DetectorStep.isCheck ∧
        s.aborts = (Run.run step (init LockConfig.default) eachWaits).aborts ++ victims := by
  refine aborts_growing_run LockConfig.default eachWaits threeChecks {1, 2} (by decide)
    (by decide +kernel) ?_ (by decide +kernel) (by decide +kernel) (by decide +kernel)
    (by decide +kernel)
  intro txnId htxn
  rcases Finset.mem_insert.mp htxn with rfl | htxn
  · exact ⟨2, by decide, 4, [108], .x, [2], by decide +kernel, by decide, .x, by decide +kernel, rfl⟩
  · obtain rfl := Finset.mem_singleton.mp htxn
    exact ⟨1, by decide, 5, [107], .x, [1], by decide +kernel, by decide, .x, by decide +kernel, rfl⟩

/-- The younger one is named three times. -/
example : (Run.run step (init LockConfig.default) (eachWaits ++ threeChecks)).aborts = [2, 2, 2] := by
  decide +kernel

end DetectorSystem
end Crabstash

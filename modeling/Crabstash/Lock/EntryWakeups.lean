import Crabstash.Lock.EntryCalls

/-!
# Waiting at a lock entry

`LockEntry` of `lock_entry.rs` with its wait queue and its condition variable.  A call that
cannot have its mode goes into the queue, and in its loop it is put to sleep with the mutex of
the holders given back in one step; `release` takes a holder out under that mutex and wakes
everybody after it.

* Seen from the holders this is the system of `EntryCalls`, in which a call tries again at any
  time (`refines_run`).
* The queue has the transactions that wait, each once (`queued_run`); nothing reads it.
* Nobody sleeps who could go on, unless a `release` is about to wake him (`awake_run`).  A mode
  that is put in may let others come in only if it takes a stronger one away, and what a
  transaction holds only becomes stronger as long as it has one call at a time (`Alone`).
-/

namespace Crabstash

/-- The two calls that wait. -/
inductive WaitKind where
  | acquire
  | upgrade
  deriving DecidableEq, Repr

/-- The places of a call that waits: before it has put itself into the queue, before a turn of
its loop, and asleep. -/
inductive WaitStage where
  | queueing
  | looping
  | parked
  deriving DecidableEq, Repr

/-- How far a call has come. -/
inductive WaitingCall where
  | tryAcquire (mode : LockMode)
  | acquire (mode : LockMode)
  | upgrade (targetMode : LockMode)
  | waiting (kind : WaitKind) (mode : LockMode) (stage : WaitStage)
  | release
  | notifyAll
  | done (result : EntryResult)

/-- The entry with its queue, and the calls on it, each with its transaction. -/
structure WaitingEntry where
  entry : LockEntry
  waitQueue : List ℕ
  calls : List (ℕ × WaitingCall)

namespace WaitingEntry

/-- Nobody holds the lock or waits for it. -/
def init : WaitingEntry := { entry := LockEntry.new, waitQueue := [], calls := [] }

/-- `remove_from_queue`. -/
def removeFromQueue (waitQueue : List ℕ) (txnId : ℕ) : List ℕ := waitQueue.filter (· != txnId)

/-- The turn of the loop that a call is in. -/
def loopTurn (e : LockEntry) (txnId : ℕ) (mode : LockMode) : WaitKind → Option LockEntry
  | .acquire => e.acquireTurn txnId mode
  | .upgrade => e.upgradeTurn txnId mode

/-- The next critical section of a call, but for the wakeup of the others: what it makes of the
holders and of the queue, and where it comes to.  The deadline may have passed; a call that is
asleep and whose deadline has not passed wakes up for no reason. -/
def turn (s : WaitingEntry) (txnId : ℕ) (deadlinePassed : Bool) :
    WaitingCall → LockEntry × List ℕ × WaitingCall
  | .tryAcquire mode =>
      let (success, e) := s.entry.tryAcquire txnId mode
      (e, s.waitQueue, .done (.acquired success))
  | .acquire mode =>
      match s.entry.tryAcquire txnId mode with
      | (true, e) => (e, s.waitQueue, .done (.locked (.ok ())))
      | (false, e) => (e, s.waitQueue, .waiting .acquire mode .queueing)
  | .upgrade targetMode =>
      match s.entry.checkUpgrade txnId targetMode with
      | .error error => (s.entry, s.waitQueue, .done (.locked (.error error)))
      | .ok true => (s.entry, s.waitQueue, .done (.locked (.ok ())))
      | .ok false => (s.entry, s.waitQueue, .waiting .upgrade targetMode .queueing)
  | .waiting .acquire mode .queueing =>
      (s.entry, s.waitQueue ++ [txnId], .waiting .acquire mode .looping)
  | .waiting .upgrade mode .queueing =>
      (s.entry, txnId :: s.waitQueue, .waiting .upgrade mode .looping)
  | .waiting kind mode .looping =>
      match loopTurn s.entry txnId mode kind with
      | some e => (e, removeFromQueue s.waitQueue txnId, .done (.locked (.ok ())))
      | none =>
          if deadlinePassed then
            (s.entry, removeFromQueue s.waitQueue txnId, .done (.locked (.error .timeout)))
          else (s.entry, s.waitQueue, .waiting kind mode .parked)
  | .waiting kind mode .parked =>
      if deadlinePassed then
        (s.entry, removeFromQueue s.waitQueue txnId, .done (.locked (.error .timeout)))
      else (s.entry, s.waitQueue, .waiting kind mode .looping)
  | .release =>
      if (s.entry.getMode txnId).isSome then (s.entry.release txnId, s.waitQueue, .notifyAll)
      else (s.entry.release txnId, s.waitQueue, .done (.released false))
  | .notifyAll => (s.entry, s.waitQueue, .done (.released true))
  | .done result => (s.entry, s.waitQueue, .done result)

/-- What `notify_all` does to a call. -/
def wake : WaitingCall → WaitingCall
  | .waiting kind mode .parked => .waiting kind mode .looping
  | call => call

/-- What a step of a call does to the other calls. -/
def others : WaitingCall → WaitingCall → WaitingCall
  | .notifyAll => wake
  | _ => id

/-- The calls after a step of the one with this number. -/
def callsAfter (calls : List (ℕ × WaitingCall)) (callId txnId : ℕ) (call call' : WaitingCall) :
    List (ℕ × WaitingCall) :=
  (calls.map fun p => (p.1, others call p.2)).set callId (txnId, call')

/-- A call is made; its first critical section comes later. -/
def invoke (s : WaitingEntry) (txnId : ℕ) (call : WaitingCall) : WaitingEntry :=
  { s with calls := s.calls ++ [(txnId, call)] }

/-- A call is made, or one under way goes on. -/
def step (s : WaitingEntry) : EntryStep → WaitingEntry
  | .tryAcquire txnId mode => s.invoke txnId (.tryAcquire mode)
  | .acquire txnId mode => s.invoke txnId (.acquire mode)
  | .upgrade txnId targetMode => s.invoke txnId (.upgrade targetMode)
  | .release txnId => s.invoke txnId .release
  | .advance callId deadlinePassed =>
      match s.calls[callId]? with
      | none => s
      | some (txnId, call) =>
          let (entry, waitQueue, call') := s.turn txnId deadlinePassed call
          { entry, waitQueue, calls := callsAfter s.calls callId txnId call call' }

/-! ## What a critical section does -/

/-- The call has not returned, and it may put a mode in. -/
def contends : WaitingCall → Bool
  | .tryAcquire _ => true
  | .acquire _ => true
  | .upgrade _ => true
  | .waiting _ _ _ => true
  | .release => false
  | .notifyAll => false
  | .done _ => false

/-- The call is in the queue. -/
def queued : WaitingCall → Bool
  | .waiting _ _ .looping => true
  | .waiting _ _ .parked => true
  | _ => false

/-- A mode that the transaction holds can be upgraded to this one. -/
def Upgrades (e : LockEntry) (txnId : ℕ) (mode : LockMode) : Prop :=
  ∀ held, e.getMode txnId = some held → held.canUpgradeTo mode = true

/-- The ways a critical section of a call can go. -/
inductive TurnEffect (s : WaitingEntry) (txnId : ℕ) :
    WaitingCall → LockEntry × List ℕ × WaitingCall → Prop
  | returns {call : WaitingCall} {result : EntryResult} (hcall : queued call = false)
      (hnotify : call ≠ .notifyAll) :
      TurnEffect s txnId call (s.entry, s.waitQueue, .done result)
  | notifies : TurnEffect s txnId .notifyAll (s.entry, s.waitQueue, .done (.released true))
  | acquires {call : WaitingCall} {mode : LockMode} {result : EntryResult}
      (hcall : queued call = false) (hcontends : contends call = true)
      (hupgrades : Upgrades s.entry txnId mode) :
      TurnEffect s txnId call (s.entry.insert txnId mode, s.waitQueue, .done result)
  | waits {call : WaitingCall} {kind : WaitKind} {mode : LockMode} (hcall : queued call = false)
      (hcontends : contends call = true) (hupgrades : Upgrades s.entry txnId mode) :
      TurnEffect s txnId call (s.entry, s.waitQueue, .waiting kind mode .queueing)
  | queues {kind : WaitKind} {mode : LockMode} {waitQueue : List ℕ}
      (hqueue : waitQueue.Perm (txnId :: s.waitQueue)) :
      TurnEffect s txnId (.waiting kind mode .queueing)
        (s.entry, waitQueue, .waiting kind mode .looping)
  | comesIn {kind : WaitKind} {mode : LockMode} {result : EntryResult} :
      TurnEffect s txnId (.waiting kind mode .looping)
        (s.entry.insert txnId mode, removeFromQueue s.waitQueue txnId, .done result)
  | parks {kind : WaitKind} {mode : LockMode}
      (hblocked : s.entry.isCompatibleWithHolders txnId mode = false) :
      TurnEffect s txnId (.waiting kind mode .looping)
        (s.entry, s.waitQueue, .waiting kind mode .parked)
  | leaves {kind : WaitKind} {mode : LockMode} {stage : WaitStage} {result : EntryResult}
      (hstage : stage ≠ .queueing) :
      TurnEffect s txnId (.waiting kind mode stage)
        (s.entry, removeFromQueue s.waitQueue txnId, .done result)
  | wakes {kind : WaitKind} {mode : LockMode} :
      TurnEffect s txnId (.waiting kind mode .parked)
        (s.entry, s.waitQueue, .waiting kind mode .looping)
  | releases : TurnEffect s txnId .release (s.entry.release txnId, s.waitQueue, .notifyAll)

theorem upgrades_of_not_keeps {e : LockEntry} {txnId : ℕ} {mode : LockMode}
    (hkeeps : e.keeps txnId mode = false) : Upgrades e txnId mode := by
  intro held hheld
  unfold LockEntry.keeps at hkeeps
  rw [show e.holders.lookup txnId = some held from hheld] at hkeeps
  simp only [Bool.or_eq_false_iff, Bool.not_eq_false'] at hkeeps
  exact hkeeps.2

theorem upgrades_of_checkUpgrade {e : LockEntry} {txnId : ℕ} {mode : LockMode}
    (hcheck : e.checkUpgrade txnId mode = .ok false) : Upgrades e txnId mode := by
  intro held hheld
  unfold LockEntry.checkUpgrade at hcheck
  rw [show e.holders.lookup txnId = some held from hheld] at hcheck
  by_contra hnot
  by_cases heq : held = mode
  · simp [heq] at hcheck
  · simp [heq, hnot] at hcheck

theorem release_of_none {e : LockEntry} {txnId : ℕ} (hnone : e.getMode txnId = none) :
    e.release txnId = e := by
  unfold LockEntry.release
  have hentries : (e.holders.erase txnId).entries = e.holders.entries :=
    List.kerase_of_notMem_keys fun hmem =>
      absurd (AList.lookup_isSome.mpr hmem) (by rw [show e.holders.lookup txnId = none from hnone]; simp)
  rw [AList.ext hentries]

theorem loopTurn_eq (e : LockEntry) (txnId : ℕ) (mode : LockMode) (kind : WaitKind) :
    loopTurn e txnId mode kind = e.acquireTurn txnId mode := by
  cases kind with
  | acquire => rfl
  | upgrade => exact e.upgradeTurn_eq txnId mode

theorem turn_effect (s : WaitingEntry) (txnId : ℕ) (deadlinePassed : Bool) (call : WaitingCall) :
    TurnEffect s txnId call (s.turn txnId deadlinePassed call) := by
  cases call with
  | tryAcquire mode =>
      rw [turn]
      rcases s.entry.tryAcquire_cases txnId mode with
        ⟨-, htry⟩ | ⟨hkeeps, -, htry⟩ | ⟨-, -, htry⟩
      · rw [htry]
        exact .returns rfl nofun
      · rw [htry]
        -- an attempt that gets the lock leaves the queue and the sleepers alone
        exact .acquires rfl rfl (upgrades_of_not_keeps hkeeps)
      · rw [htry]
        exact .returns rfl nofun
  | acquire mode =>
      rw [turn]
      rcases s.entry.tryAcquire_cases txnId mode with
        ⟨-, htry⟩ | ⟨hkeeps, -, htry⟩ | ⟨hkeeps, -, htry⟩
      · rw [htry]
        exact .returns rfl nofun
      · rw [htry]
        exact .acquires rfl rfl (upgrades_of_not_keeps hkeeps)
      · rw [htry]
        exact .waits rfl rfl (upgrades_of_not_keeps hkeeps)
  | upgrade mode =>
      rw [turn]
      cases hcheck : s.entry.checkUpgrade txnId mode with
      | error error => exact .returns rfl nofun
      | ok isHeld =>
          cases isHeld with
          | true => exact .returns rfl nofun
          | false => exact .waits rfl rfl (upgrades_of_checkUpgrade hcheck)
  | waiting kind mode stage =>
      cases stage with
      | queueing =>
          cases kind with
          | acquire => exact .queues (List.perm_append_singleton _ _)
          | upgrade => exact .queues (List.Perm.refl _)
      | looping =>
          -- a turn of the loop comes in, leaves at the deadline, or goes to sleep
          rw [turn, loopTurn_eq, LockEntry.acquireTurn]
          cases hcompatible : s.entry.isCompatibleWithHolders txnId mode with
          | true => exact .comesIn
          | false =>
              cases deadlinePassed with
              | true => exact .leaves WaitStage.noConfusion
              | false => exact .parks hcompatible
      | parked =>
          rw [turn]
          cases deadlinePassed with
          | true => exact .leaves WaitStage.noConfusion
          | false => exact .wakes
  | release =>
      rw [turn]
      cases hheld : s.entry.getMode txnId with
      | none =>
          rw [release_of_none hheld]
          exact .returns rfl nofun
      | some held => exact .releases
  | notifyAll => exact .notifies
  | done result => exact .returns rfl nofun

/-! ## The calls of a step -/

@[simp] theorem contends_others (call other : WaitingCall) :
    contends (others call other) = contends other := by
  cases call <;> try rfl
  cases other <;> try rfl
  next kind mode stage => cases stage <;> rfl

@[simp] theorem queued_others (call other : WaitingCall) :
    queued (others call other) = queued other := by
  cases call <;> try rfl
  cases other <;> try rfl
  next kind mode stage => cases stage <;> rfl

/-- A wakeup leaves a call waiting for the same mode. -/
theorem waiting_of_others {call other : WaitingCall} {kind : WaitKind} {mode : LockMode}
    {stage : WaitStage} (heq : others call other = .waiting kind mode stage) :
    ∃ stage', other = .waiting kind mode stage' := by
  cases call with
  | notifyAll =>
      cases other with
      | waiting kind' mode' stage' => cases stage' <;> cases heq <;> exact ⟨_, rfl⟩
      | _ => contradiction
  | _ => exact ⟨stage, heq⟩

theorem parked_of_others {call other : WaitingCall} {kind : WaitKind} {mode : LockMode}
    (heq : others call other = .waiting kind mode .parked) :
    call ≠ .notifyAll ∧ other = .waiting kind mode .parked := by
  cases call with
  | notifyAll =>
      cases other with
      | waiting kind' mode' stage' => cases stage' <;> cases heq
      | _ => contradiction
  | _ => exact ⟨nofun, heq⟩

section

variable {s : WaitingEntry} {callId txnId : ℕ} {call : WaitingCall}

theorem getElem?_callsAfter (hcall : s.calls[callId]? = some (txnId, call)) (call' : WaitingCall)
    (j : ℕ) : (callsAfter s.calls callId txnId call call')[j]? =
      if j = callId then some (txnId, call')
      else s.calls[j]?.map fun p => (p.1, others call p.2) := by
  have hlt : callId < s.calls.length := (List.getElem?_eq_some_iff.mp hcall).1
  unfold callsAfter
  split
  · next heq =>
      subst heq
      exact List.getElem?_set_self (by simpa using hlt)
  · next hne => rw [List.getElem?_set_ne (Ne.symm hne), List.getElem?_map]

/-- A call after the step is the one that has gone on, or one of the others. -/
theorem callsAfter_cases (hcall : s.calls[callId]? = some (txnId, call)) {call' : WaitingCall}
    {j txnId' : ℕ} {c' : WaitingCall}
    (hc' : (callsAfter s.calls callId txnId call call')[j]? = some (txnId', c')) :
    (j = callId ∧ txnId' = txnId ∧ c' = call') ∨
      (j ≠ callId ∧ ∃ c, s.calls[j]? = some (txnId', c) ∧ c' = others call c) := by
  rw [getElem?_callsAfter hcall] at hc'
  split at hc'
  · next heq =>
      obtain ⟨rfl, rfl⟩ := Prod.mk.inj (Option.some.inj hc')
      exact Or.inl ⟨heq, rfl, rfl⟩
  · next hne =>
      obtain ⟨⟨txnId'', c⟩, hc, heq⟩ := Option.map_eq_some_iff.mp hc'
      obtain ⟨rfl, rfl⟩ := Prod.mk.inj heq
      exact Or.inr ⟨hne, c, hc, rfl⟩

theorem callsAfter_self (hcall : s.calls[callId]? = some (txnId, call)) (call' : WaitingCall) :
    (callsAfter s.calls callId txnId call call')[callId]? = some (txnId, call') := by
  rw [getElem?_callsAfter hcall, if_pos rfl]

theorem callsAfter_other (hcall : s.calls[callId]? = some (txnId, call)) (call' : WaitingCall)
    {j txnId' : ℕ} {c : WaitingCall} (hne : j ≠ callId) (hc : s.calls[j]? = some (txnId', c)) :
    (callsAfter s.calls callId txnId call call')[j]? = some (txnId', others call c) := by
  rw [getElem?_callsAfter hcall, if_neg hne, hc]
  rfl

end

/-! ## The invariant -/

/-- No transaction has two calls under way that may put a mode in. -/
def Single (s : WaitingEntry) : Prop :=
  ∀ (i j txnId : ℕ) (c c' : WaitingCall), s.calls[i]? = some (txnId, c) →
    s.calls[j]? = some (txnId, c') → contends c = true → contends c' = true → i = j

/-- A transaction that makes a call that may put a mode in has no other one under way. -/
def Alone (s : WaitingEntry) : EntryStep → Prop
  | .tryAcquire txnId _ => ∀ p ∈ s.calls, p.1 = txnId → contends p.2 = false
  | .acquire txnId _ => ∀ p ∈ s.calls, p.1 = txnId → contends p.2 = false
  | .upgrade txnId _ => ∀ p ∈ s.calls, p.1 = txnId → contends p.2 = false
  | _ => True

instance (s : WaitingEntry) : ∀ action, Decidable (s.Alone action)
  | .tryAcquire _ _ => inferInstanceAs (Decidable (∀ p ∈ s.calls, _ → _))
  | .acquire _ _ => inferInstanceAs (Decidable (∀ p ∈ s.calls, _ → _))
  | .upgrade _ _ => inferInstanceAs (Decidable (∀ p ∈ s.calls, _ → _))
  | .release _ => inferInstanceAs (Decidable True)
  | .advance _ _ => inferInstanceAs (Decidable True)

/-- Somebody is about to wake everybody up. -/
def Notifying (s : WaitingEntry) : Prop :=
  ∃ j txnId : ℕ, s.calls[j]? = some (txnId, WaitingCall.notifyAll)

/-- What a run keeps: one call for each transaction, the queue is that of the waiting calls,
and who sleeps beside a free lock is about to be woken. -/
structure Tidy (s : WaitingEntry) : Prop where
  single : s.Single
  upgrades : ∀ (i txnId : ℕ) (kind : WaitKind) (mode : LockMode) (stage : WaitStage),
    s.calls[i]? = some (txnId, .waiting kind mode stage) → Upgrades s.entry txnId mode
  nodup : s.waitQueue.Nodup
  mem_waitQueue : ∀ txnId, txnId ∈ s.waitQueue ↔
    ∃ (i : ℕ) (c : WaitingCall), s.calls[i]? = some (txnId, c) ∧ queued c = true
  awake : ∀ (i txnId : ℕ) (kind : WaitKind) (mode : LockMode),
    s.calls[i]? = some (txnId, .waiting kind mode .parked) →
      s.entry.isCompatibleWithHolders txnId mode = true → s.Notifying

theorem not_calls_init (i : ℕ) (p : ℕ × WaitingCall) : init.calls[i]? ≠ some p := by
  simp [init]

theorem tidy_init : init.Tidy where
  single := fun i _ txnId c _ hc => absurd hc (not_calls_init i (txnId, c))
  upgrades := fun i _ _ _ _ hc => absurd hc (not_calls_init i _)
  nodup := List.nodup_nil
  mem_waitQueue := by
    intro txnId
    simp [init]
  awake := fun i _ _ _ hc => absurd hc (not_calls_init i _)

theorem contends_of_queued {c : WaitingCall} (hqueued : queued c = true) : contends c = true := by
  cases c <;> first | rfl | contradiction

section

variable {s : WaitingEntry}

theorem mem_invoke {txnId i txnId' : ℕ} {call c : WaitingCall}
    (hc : (s.invoke txnId call).calls[i]? = some (txnId', c)) :
    s.calls[i]? = some (txnId', c) ∨ i = s.calls.length ∧ txnId' = txnId ∧ c = call := by
  have hc : (s.calls ++ [(txnId, call)])[i]? = some (txnId', c) := hc
  rw [List.getElem?_append] at hc
  split at hc
  · exact Or.inl hc
  · next hge =>
      have hi : i - s.calls.length < [(txnId, call)].length := (List.getElem?_eq_some_iff.mp hc).1
      have hzero : i - s.calls.length = 0 := Nat.lt_one_iff.mp hi
      rw [hzero] at hc
      obtain ⟨rfl, rfl⟩ := Prod.mk.inj (Option.some.inj hc)
      exact Or.inr ⟨by omega, rfl, rfl⟩

theorem invoke_of_mem {i txnId' : ℕ} {c : WaitingCall} (txnId : ℕ) (call : WaitingCall)
    (hc : s.calls[i]? = some (txnId', c)) :
    (s.invoke txnId call).calls[i]? = some (txnId', c) := by
  have hlt : i < s.calls.length := (List.getElem?_eq_some_iff.mp hc).1
  show (s.calls ++ [(txnId, call)])[i]? = _
  rw [List.getElem?_append_left hlt, hc]

/-- A new call, which has not come to its loop. -/
theorem Tidy.invoke (h : s.Tidy) {txnId : ℕ} {call : WaitingCall}
    (halone : contends call = true → ∀ p ∈ s.calls, p.1 = txnId → contends p.2 = false)
    (hnew : ∀ kind mode stage, call ≠ .waiting kind mode stage) : (s.invoke txnId call).Tidy where
  single := by
    -- the new call contends with no other one of its transaction
    have hnot : ∀ (i : ℕ) (c : WaitingCall), s.calls[i]? = some (txnId, c) → contends c = true →
        contends call = true → False := by
      intro i c hc hcontends hcall
      have := halone hcall _ (List.mem_of_getElem? hc) rfl
      rw [hcontends] at this
      contradiction
    intro i j txnId' c c' hc hc' hcontends hcontends'
    rcases mem_invoke hc with hold | ⟨rfl, rfl, rfl⟩
    · rcases mem_invoke hc' with hold' | ⟨rfl, rfl, rfl⟩
      · exact h.single i j txnId' c c' hold hold' hcontends hcontends'
      · exact (hnot i c hold hcontends hcontends').elim
    · rcases mem_invoke hc' with hold' | ⟨rfl, -, -⟩
      · exact (hnot j c' hold' hcontends' hcontends).elim
      · rfl
  upgrades := by
    intro i txnId' kind mode stage hc
    rcases mem_invoke hc with hc | ⟨-, -, heq⟩
    · exact h.upgrades i txnId' kind mode stage hc
    · exact absurd heq.symm (hnew kind mode stage)
  nodup := h.nodup
  mem_waitQueue := by
    intro txnId'
    refine (h.mem_waitQueue txnId').trans ⟨?_, ?_⟩
    · rintro ⟨i, c, hc, hqueued⟩
      exact ⟨i, c, invoke_of_mem txnId call hc, hqueued⟩
    · rintro ⟨i, c, hc, hqueued⟩
      rcases mem_invoke hc with hc | ⟨-, -, rfl⟩
      · exact ⟨i, c, hc, hqueued⟩
      · cases c with
        | waiting kind mode stage => exact absurd rfl (hnew kind mode stage)
        | _ => contradiction
  awake := by
    intro i txnId' kind mode hc hcompatible
    rcases mem_invoke hc with hc | ⟨-, -, heq⟩
    · obtain ⟨j, other, hother⟩ := h.awake i txnId' kind mode hc hcompatible
      exact ⟨j, other, invoke_of_mem txnId call hother⟩
    · exact absurd heq.symm (hnew kind mode .parked)

/-! ## A step of a call -/

/-- What goes with a stronger mode goes with the mode that it was upgraded from. -/
theorem isCompatible_of_canUpgradeTo {mode held stronger : LockMode}
    (hupgrade : held.canUpgradeTo stronger = true) (hcompatible : mode.isCompatible stronger = true) :
    mode.isCompatible held = true := by
  cases held <;> cases stronger <;> first | contradiction | (cases mode <;> first | rfl | contradiction)

/-- A mode that is put in lets nobody come in. -/
theorem isCompatibleWithHolders_of_insert {e : LockEntry} {txnId txnId' : ℕ} {mode mode' : LockMode}
    (hupgrades : Upgrades e txnId mode)
    (hcompatible : (e.insert txnId mode).isCompatibleWithHolders txnId' mode' = true) :
    e.isCompatibleWithHolders txnId' mode' = true := by
  rw [LockEntry.isCompatibleWithHolders_iff] at hcompatible ⊢
  intro holder held hheld
  by_cases heq : holder = txnId
  · subst heq
    have hafter := hcompatible holder mode (by rw [LockEntry.getMode_insert, if_pos rfl])
    exact hafter.imp_right fun hgoes => isCompatible_of_canUpgradeTo (hupgrades held hheld) hgoes
  · exact hcompatible holder held (by rw [LockEntry.getMode_insert, if_neg heq, hheld])

section Step

variable {callId txnId : ℕ} {call : WaitingCall} {result : LockEntry × List ℕ × WaitingCall}

/-- The state after a step of a call. -/
def after (s : WaitingEntry) (callId txnId : ℕ) (call : WaitingCall)
    (result : LockEntry × List ℕ × WaitingCall) : WaitingEntry :=
  { entry := result.1
    waitQueue := result.2.1
    calls := callsAfter s.calls callId txnId call result.2.2 }

theorem TurnEffect.contends (heffect : TurnEffect s txnId call result)
    (hcontends : WaitingEntry.contends result.2.2 = true) : WaitingEntry.contends call = true := by
  cases heffect <;> first | assumption | rfl | contradiction

theorem single_after (h : s.Tidy) (hcall : s.calls[callId]? = some (txnId, call))
    (heffect : TurnEffect s txnId call result) : (s.after callId txnId call result).Single := by
  -- a call that contends after the step has contended before
  have hbefore : ∀ (i txnId' : ℕ) (c : WaitingCall),
      (s.after callId txnId call result).calls[i]? = some (txnId', c) → contends c = true →
        ∃ c₀, s.calls[i]? = some (txnId', c₀) ∧ contends c₀ = true := by
    intro i txnId' c hc hcontends
    rcases callsAfter_cases hcall hc with ⟨rfl, rfl, rfl⟩ | ⟨-, c₀, hc₀, rfl⟩
    · exact ⟨call, hcall, heffect.contends hcontends⟩
    · exact ⟨c₀, hc₀, (contends_others call c₀).symm.trans hcontends⟩
  intro i j txnId' c c' hc hc' hcontends hcontends'
  obtain ⟨c₀, hc₀, hcontends₀⟩ := hbefore i txnId' c hc hcontends
  obtain ⟨c₁, hc₁, hcontends₁⟩ := hbefore j txnId' c' hc' hcontends'
  exact h.single i j txnId' c₀ c₁ hc₀ hc₁ hcontends₀ hcontends₁

/-- A call that waits after the step waits for a mode that it could upgrade to before. -/
theorem upgrades_before (h : s.Tidy) (hcall : s.calls[callId]? = some (txnId, call))
    (heffect : TurnEffect s txnId call result) {i txnId' : ℕ} {kind : WaitKind} {mode : LockMode}
    {stage : WaitStage}
    (hc : (s.after callId txnId call result).calls[i]? = some (txnId', .waiting kind mode stage)) :
    Upgrades s.entry txnId' mode := by
  rcases callsAfter_cases hcall hc with ⟨rfl, rfl, heq⟩ | ⟨-, c, hc, heq⟩
  · cases heffect with
    | waits _ _ hupgrades =>
        cases heq
        exact hupgrades
    | queues _ | parks _ | wakes =>
        cases heq
        exact h.upgrades i _ _ _ _ hcall
    | _ => contradiction
  · obtain ⟨stage', rfl⟩ := waiting_of_others heq.symm
    exact h.upgrades i txnId' kind mode stage' hc

theorem upgrades_after (h : s.Tidy) (hcall : s.calls[callId]? = some (txnId, call))
    (heffect : TurnEffect s txnId call result) {i txnId' : ℕ} {kind : WaitKind} {mode : LockMode}
    {stage : WaitStage}
    (hc : (s.after callId txnId call result).calls[i]? = some (txnId', .waiting kind mode stage)) :
    Upgrades (s.after callId txnId call result).entry txnId' mode := by
  have hbefore := upgrades_before h hcall heffect hc
  -- the one that has put a mode in has returned, and waits for no other
  have hother : queued call = true ∨ contends call = true →
      (∃ r, result.2.2 = .done r) → txnId' ≠ txnId := by
    rintro hcontends ⟨r, hr⟩ rfl
    have hcontends : contends call = true := hcontends.elim contends_of_queued id
    rcases callsAfter_cases hcall hc with ⟨-, -, heq⟩ | ⟨hne, c, hc, heq⟩
    · rw [hr] at heq
      contradiction
    · obtain ⟨stage', rfl⟩ := waiting_of_others heq.symm
      exact hne (h.single i callId txnId' _ _ hc hcall rfl hcontends)
  have hinsert : txnId' ≠ txnId → ∀ mode', Upgrades (s.entry.insert txnId mode') txnId' mode := by
    intro hne mode' held hheld
    rw [LockEntry.getMode_insert, if_neg hne] at hheld
    exact hbefore held hheld
  cases heffect with
  | acquires _ hcontends _ => exact hinsert (hother (Or.inr hcontends) ⟨_, rfl⟩) _
  | comesIn => exact hinsert (hother (Or.inl rfl) ⟨_, rfl⟩) _
  | releases =>
      intro held hheld
      have hheld : (s.entry.release txnId).getMode txnId' = some held := hheld
      rw [LockEntry.getMode_release] at hheld
      split at hheld
      · contradiction
      · exact hbefore held hheld
  | _ => exact hbefore

/-- A call that goes into the queue, or out of it, is the only one of its transaction there. -/
theorem queue_after (h : s.Tidy) (hcall : s.calls[callId]? = some (txnId, call))
    (heffect : TurnEffect s txnId call result) :
    result.2.1.Nodup ∧ ∀ txnId', txnId' ∈ result.2.1 ↔ ∃ (i : ℕ) (c : WaitingCall),
      (s.after callId txnId call result).calls[i]? = some (txnId', c) ∧ queued c = true := by
  have hmem : ∀ txnId', (∃ (i : ℕ) (c : WaitingCall),
      (s.after callId txnId call result).calls[i]? = some (txnId', c) ∧ queued c = true) ↔
        txnId' = txnId ∧ queued result.2.2 = true ∨
          ∃ (i : ℕ) (c : WaitingCall), i ≠ callId ∧ s.calls[i]? = some (txnId', c) ∧
            queued c = true := by
    intro txnId'
    constructor
    · rintro ⟨i, c, hc, hqueued⟩
      rcases callsAfter_cases hcall hc with ⟨-, rfl, rfl⟩ | ⟨hne, c₀, hc₀, rfl⟩
      · exact Or.inl ⟨rfl, hqueued⟩
      · exact Or.inr ⟨i, c₀, hne, hc₀, (queued_others call c₀).symm.trans hqueued⟩
    · rintro (⟨rfl, hqueued⟩ | ⟨i, c, hne, hc, hqueued⟩)
      · exact ⟨callId, _, callsAfter_self hcall _, hqueued⟩
      · exact ⟨i, _, callsAfter_other hcall _ hne hc, (queued_others call c).trans hqueued⟩
  have hwas : ∀ txnId', txnId' ∈ s.waitQueue ↔ txnId' = txnId ∧ queued call = true ∨
      ∃ (i : ℕ) (c : WaitingCall), i ≠ callId ∧ s.calls[i]? = some (txnId', c) ∧
        queued c = true := by
    intro txnId'
    rw [h.mem_waitQueue]
    constructor
    · rintro ⟨i, c, hc, hqueued⟩
      by_cases heq : i = callId
      · rw [heq, hcall] at hc
        obtain ⟨rfl, rfl⟩ := Prod.mk.inj (Option.some.inj hc)
        exact Or.inl ⟨rfl, hqueued⟩
      · exact Or.inr ⟨i, c, heq, hc, hqueued⟩
    · rintro (⟨rfl, hqueued⟩ | ⟨i, c, -, hc, hqueued⟩)
      · exact ⟨callId, call, hcall, hqueued⟩
      · exact ⟨i, c, hc, hqueued⟩
  -- no other call of the transaction is in the queue while this one contends
  have halone : contends call = true → ∀ (i : ℕ) (c : WaitingCall), i ≠ callId →
      s.calls[i]? = some (txnId, c) → queued c = true → False := by
    intro hcontends i c hne hc hqueued
    exact hne (h.single i callId txnId c call hc hcall (contends_of_queued hqueued) hcontends)
  have hsame : queued result.2.2 = queued call → result.2.1 = s.waitQueue →
      result.2.1.Nodup ∧ ∀ txnId', txnId' ∈ result.2.1 ↔ ∃ (i : ℕ) (c : WaitingCall),
        (s.after callId txnId call result).calls[i]? = some (txnId', c) ∧ queued c = true := by
    intro hqueued hqueue
    refine ⟨hqueue ▸ h.nodup, fun txnId' => ?_⟩
    rw [hmem, hqueue, hwas, hqueued]
  have hremoved : queued result.2.2 = false → contends call = true →
      result.2.1 = removeFromQueue s.waitQueue txnId →
      result.2.1.Nodup ∧ ∀ txnId', txnId' ∈ result.2.1 ↔ ∃ (i : ℕ) (c : WaitingCall),
        (s.after callId txnId call result).calls[i]? = some (txnId', c) ∧ queued c = true := by
    intro hqueued hcontends hqueue
    refine ⟨hqueue ▸ h.nodup.filter _, fun txnId' => ?_⟩
    rw [hmem, hqueue, removeFromQueue, List.mem_filter, hwas, hqueued]
    simp only [bne_iff_ne, ne_eq, Bool.false_eq_true, and_false, false_or]
    constructor
    · rintro ⟨⟨heq, -⟩ | hothers, hne⟩
      · exact absurd heq hne
      · exact hothers
    · rintro ⟨i, c, hne, hc, hqueued'⟩
      refine ⟨Or.inr ⟨i, c, hne, hc, hqueued'⟩, ?_⟩
      rintro rfl
      exact halone hcontends i c hne hc hqueued'
  cases heffect with
  | returns hcall _ => exact hsame hcall.symm rfl
  | notifies => exact hsame rfl rfl
  | acquires hcall _ _ => exact hsame hcall.symm rfl
  | waits hcall _ _ => exact hsame hcall.symm rfl
  | queues hqueue =>
      have hfresh : txnId ∉ s.waitQueue := by
        rw [hwas]
        rintro (⟨-, hqueued⟩ | ⟨i, c, hne, hc, hqueued⟩)
        · contradiction
        · exact halone rfl i c hne hc hqueued
      refine ⟨hqueue.symm.nodup (List.nodup_cons.mpr ⟨hfresh, h.nodup⟩), fun txnId' => ?_⟩
      rw [hmem, hqueue.mem_iff, List.mem_cons, hwas]
      simp [queued]
  | comesIn => exact hremoved rfl rfl rfl
  | parks _ => exact hsame rfl rfl
  | leaves hstage => exact hremoved rfl rfl rfl
  | wakes => exact hsame rfl rfl
  | releases => exact hsame rfl rfl

/-- Whoever may go on, and could not before, is about to be woken. -/
theorem awake_after (h : s.Tidy) (hcall : s.calls[callId]? = some (txnId, call))
    (heffect : TurnEffect s txnId call result) {i txnId' : ℕ} {kind : WaitKind} {mode : LockMode}
    (hc : (s.after callId txnId call result).calls[i]? = some (txnId', .waiting kind mode .parked))
    (hcompatible : result.1.isCompatibleWithHolders txnId' mode = true) :
    (s.after callId txnId call result).Notifying := by
  -- the one who was about to wake the others still is, if he has not done so
  have hkeeps : call ≠ .notifyAll → s.Notifying →
      (s.after callId txnId call result).Notifying := by
    rintro hnot ⟨j, other, hother⟩
    have hne : j ≠ callId := by
      rintro rfl
      rw [hcall] at hother
      exact hnot (Prod.mk.inj (Option.some.inj hother)).2
    have hafter := callsAfter_other hcall result.2.2 hne hother
    refine ⟨j, other, hafter.trans ?_⟩
    cases call <;> rfl
  rcases callsAfter_cases hcall hc with ⟨-, rfl, heq⟩ | ⟨-, c, hc, heq⟩
  · cases heffect with
    | parks hblocked =>
        cases heq
        rw [hblocked] at hcompatible
        contradiction
    | _ => cases heq
  · obtain ⟨hnot, rfl⟩ := parked_of_others heq.symm
    have hbefore : s.entry.isCompatibleWithHolders txnId' mode = true →
        (s.after callId txnId call result).Notifying := fun hcould =>
      hkeeps hnot (h.awake i txnId' kind mode hc hcould)
    cases heffect with
    | acquires _ _ hupgrades =>
        exact hbefore (isCompatibleWithHolders_of_insert hupgrades hcompatible)
    | comesIn =>
        exact hbefore (isCompatibleWithHolders_of_insert
          (h.upgrades callId txnId _ _ _ hcall) hcompatible)
    | releases => exact ⟨callId, txnId, callsAfter_self hcall _⟩
    | _ => exact hbefore hcompatible

theorem Tidy.after (h : s.Tidy) (hcall : s.calls[callId]? = some (txnId, call))
    (heffect : TurnEffect s txnId call result) : (s.after callId txnId call result).Tidy where
  single := single_after h hcall heffect
  upgrades := fun _ _ _ _ _ hc => upgrades_after h hcall heffect hc
  nodup := (queue_after h hcall heffect).1
  mem_waitQueue := (queue_after h hcall heffect).2
  awake := fun _ _ _ _ hc hcompatible => awake_after h hcall heffect hc hcompatible

end Step

theorem Tidy.step (h : s.Tidy) {action : EntryStep} (halone : s.Alone action) :
    (s.step action).Tidy := by
  cases action with
  | tryAcquire txnId mode => exact h.invoke (fun _ => halone) nofun
  | acquire txnId mode => exact h.invoke (fun _ => halone) nofun
  | upgrade txnId targetMode => exact h.invoke (fun _ => halone) nofun
  | release txnId => exact h.invoke nofun nofun
  | advance callId deadlinePassed =>
      rw [WaitingEntry.step]
      split
      · exact h
      · next txnId call hcall => exact h.after hcall (turn_effect s txnId deadlinePassed call)

end

/-! ## Runs -/

/-- **No wakeup is lost.**  In every run in which a transaction has one call at a time, a call
sleeps only while another transaction holds a mode that its own does not go with, or while a
`release` is about to wake it. -/
theorem awake_run {steps : List EntryStep} (halone : Run.Along step Alone init steps)
    {i txnId : ℕ} {kind : WaitKind} {mode : LockMode}
    (hparked : (Run.run step init steps).calls[i]? =
      some (txnId, .waiting kind mode .parked)) :
    (Run.run step init steps).Notifying ∨
      ∃ holder held, holder ≠ txnId ∧ (Run.run step init steps).entry.getMode holder = some held ∧
        mode.isCompatible held = false := by
  have htidy : (Run.run step init steps).Tidy :=
    halone.invariant Tidy (fun _ _ h => h.step) tidy_init
  by_cases hcompatible : (Run.run step init steps).entry.isCompatibleWithHolders txnId mode = true
  · exact Or.inl (htidy.awake i txnId kind mode hparked hcompatible)
  · right
    rw [LockEntry.isCompatibleWithHolders_iff] at hcompatible
    push Not at hcompatible
    obtain ⟨holder, held, hheld, hne, hnot⟩ := hcompatible
    exact ⟨holder, held, hne, hheld, by simpa using hnot⟩

/-- **The queue has those who wait.**  In such a run the queue has every transaction with a call
that is in its loop once, and nobody else. -/
theorem queued_run {steps : List EntryStep} (halone : Run.Along step Alone init steps) :
    (Run.run step init steps).waitQueue.Nodup ∧
      ∀ txnId, txnId ∈ (Run.run step init steps).waitQueue ↔ ∃ (i : ℕ) (c : WaitingCall),
        (Run.run step init steps).calls[i]? = some (txnId, c) ∧ queued c = true := by
  have htidy : (Run.run step init steps).Tidy :=
    halone.invariant Tidy (fun _ _ h => h.step) tidy_init
  exact ⟨htidy.nodup, htidy.mem_waitQueue⟩

/-- A reader waits for the writer, and another one behind it. -/
def twoReaders : List EntryStep :=
  [.acquire 1 .x, .advance 0 false, .acquire 2 .s, .advance 1 false, .advance 1 false,
    .advance 1 false, .acquire 3 .s, .advance 2 false, .advance 2 false, .advance 2 false]

theorem awake_run_reader :
    (Run.run step init twoReaders).Notifying ∨ ∃ holder held, holder ≠ 2 ∧
      (Run.run step init twoReaders).entry.getMode holder = some held ∧
        LockMode.isCompatible .s held = false :=
  @awake_run twoReaders (by decide) 1 2 .acquire .s rfl

theorem queued_run_readers :
    (Run.run step init twoReaders).waitQueue.Nodup ∧
      ∀ txnId, txnId ∈ (Run.run step init twoReaders).waitQueue ↔ ∃ (i : ℕ) (c : WaitingCall),
        (Run.run step init twoReaders).calls[i]? = some (txnId, c) ∧ queued c = true :=
  @queued_run twoReaders (by decide)

-- two calls of transaction 2, the second of which puts in a weaker mode than the first has got:
-- transaction 3 sleeps on beside a reader
example :
    let s := Run.run step init [.acquire 1 .x, .advance 0 false, .acquire 2 .x, .advance 1 false,
      .advance 1 false, .acquire 2 .s, .advance 2 false, .advance 2 false, .release 1,
      .advance 3 false, .advance 3 false, .advance 1 false, .acquire 3 .s, .advance 4 false,
      .advance 4 false, .advance 4 false, .advance 2 false]
    s.calls[4]? = some (3, WaitingCall.waiting .acquire .s .parked) ∧
      s.entry.getHolders = [(2, LockMode.s)] :=
  ⟨rfl, rfl⟩

/-! ## Seen from the holders -/

/-- The call without its places around the condition variable. -/
def plain : WaitingCall → EntryCall
  | .tryAcquire mode => .tryAcquire mode
  | .acquire mode => .acquire mode
  | .upgrade targetMode => .upgrade targetMode
  | .waiting .acquire mode _ => .acquireLoop mode
  | .waiting .upgrade mode _ => .upgradeLoop mode
  | .release => .release
  | .notifyAll => .done (.released true)
  | .done result => .done result

/-- The holders are the same, and so are the calls but for their places. -/
structure Refines (s : WaitingEntry) (t : EntrySystem) : Prop where
  entry : s.entry = t.entry
  calls : ∀ i, t.calls.lookup i = s.calls[i]?.map fun p => (p.1, plain p.2)
  nextCallId : t.nextCallId = s.calls.length

theorem refines_init : Refines init EntrySystem.init := ⟨rfl, fun _ => rfl, rfl⟩

theorem plain_others (call other : WaitingCall) : plain (others call other) = plain other := by
  cases call with
  | notifyAll =>
      cases other with
      | waiting kind mode stage => cases kind <;> cases stage <;> rfl
      | _ => rfl
  | _ => rfl

/-- A critical section is one of the plain call, or it changes neither the holders nor the plain
call. -/
theorem turn_refines (s : WaitingEntry) (txnId : ℕ) (deadlinePassed : Bool) (call : WaitingCall) :
    ((s.turn txnId deadlinePassed call).1 = s.entry ∧
      plain (s.turn txnId deadlinePassed call).2.2 = plain call) ∨
    ∃ timedOut, s.entry.step txnId timedOut (plain call) =
      ((s.turn txnId deadlinePassed call).1, plain (s.turn txnId deadlinePassed call).2.2) := by
  cases call with
  | tryAcquire mode => exact Or.inr ⟨false, rfl⟩
  | acquire mode =>
      refine Or.inr ⟨false, ?_⟩
      rw [turn, plain, LockEntry.step]
      rcases s.entry.tryAcquire txnId mode with ⟨success, e⟩
      cases success <;> rfl
  | upgrade mode =>
      refine Or.inr ⟨false, ?_⟩
      rw [turn, plain, LockEntry.step]
      rcases s.entry.checkUpgrade txnId mode with error | isHeld
      · rfl
      · cases isHeld <;> rfl
  | waiting kind mode stage =>
      -- a call that leaves has timed out, one that comes in has not
      have hleaves : s.entry.step txnId true (plain (.waiting kind mode stage)) =
          (s.entry, .done (.locked (.error .timeout))) := by
        cases kind <;> rfl
      cases stage with
      | queueing => cases kind <;> exact Or.inl ⟨rfl, rfl⟩
      | looping =>
          rw [turn]
          cases hturn : loopTurn s.entry txnId mode kind with
          | some e =>
              refine Or.inr ⟨false, ?_⟩
              cases kind with
              | acquire =>
                  rw [plain, LockEntry.step, show s.entry.acquireTurn txnId mode = some e from hturn]
                  rfl
              | upgrade =>
                  rw [plain, LockEntry.step, show s.entry.upgradeTurn txnId mode = some e from hturn]
                  rfl
          | none =>
              cases deadlinePassed with
              | true => exact Or.inr ⟨true, hleaves⟩
              | false => cases kind <;> exact Or.inl ⟨rfl, rfl⟩
      | parked =>
          rw [turn]
          cases deadlinePassed with
          | true => exact Or.inr ⟨true, hleaves⟩
          | false => cases kind <;> exact Or.inl ⟨rfl, rfl⟩
  | release =>
      refine Or.inr ⟨false, ?_⟩
      rw [turn, plain, LockEntry.step]
      cases s.entry.getMode txnId <;> rfl
  | notifyAll => exact Or.inl ⟨rfl, rfl⟩
  | done result => exact Or.inl ⟨rfl, rfl⟩

theorem Refines.invoke {s : WaitingEntry} {t : EntrySystem} (h : Refines s t) (txnId : ℕ)
    (call : WaitingCall) : Refines (s.invoke txnId call) (t.invoke txnId (plain call)) where
  entry := h.entry
  calls := by
    intro i
    show (t.calls.insert t.nextCallId (txnId, plain call)).lookup i =
      (s.calls ++ [(txnId, call)])[i]?.map fun p => (p.1, plain p.2)
    rw [h.nextCallId]
    by_cases heq : i = s.calls.length
    · rw [heq, AList.lookup_insert, List.getElem?_concat_length]
      rfl
    · rw [AList.lookup_insert_ne heq, h.calls]
      rcases Nat.lt_or_gt_of_ne heq with hlt | hgt
      · rw [List.getElem?_append_left hlt]
      · have hend : (s.calls ++ [(txnId, call)]).length ≤ i := by
          rw [List.length_append, List.length_singleton]
          omega
        rw [List.getElem?_eq_none hgt.le, List.getElem?_eq_none hend]
  nextCallId := by
    show t.nextCallId + 1 = (s.calls ++ [(txnId, call)]).length
    rw [h.nextCallId, List.length_append, List.length_singleton]

theorem Refines.advance {s : WaitingEntry} {t : EntrySystem} (h : Refines s t) {callId txnId : ℕ}
    {call : WaitingCall} (hcall : s.calls[callId]? = some (txnId, call)) (deadlinePassed : Bool) :
    ∃ actions, Refines (s.after callId txnId call (s.turn txnId deadlinePassed call))
      (Run.run EntrySystem.step t actions) := by
  have hplain : t.calls.lookup callId = some (txnId, plain call) := by
    rw [h.calls, hcall]
    rfl
  have hlength : (s.after callId txnId call (s.turn txnId deadlinePassed call)).calls.length =
      s.calls.length := by simp [after, callsAfter]
  have hothers : ∀ i, i ≠ callId →
      (s.after callId txnId call (s.turn txnId deadlinePassed call)).calls[i]?.map
        (fun p => (p.1, plain p.2)) = t.calls.lookup i := by
    intro i hne
    rw [h.calls, after, getElem?_callsAfter hcall, if_neg hne, Option.map_map]
    simp [Function.comp_def, plain_others]
  -- queueing, sleeping and waking are no steps of the plain entry
  rcases turn_refines s txnId deadlinePassed call with ⟨hentry, hsame⟩ | ⟨timedOut, hstep⟩
  · refine ⟨[], ⟨hentry.trans h.entry, fun i => ?_, h.nextCallId.trans hlength.symm⟩⟩
    by_cases heq : i = callId
    · rw [heq, Run.run_nil, hplain, after, callsAfter_self hcall, Option.map_some, hsame]
    · exact (hothers i heq).symm
  · have hrun : Run.run EntrySystem.step t [.advance callId timedOut] =
        { t with
          entry := (s.turn txnId deadlinePassed call).1
          calls := t.calls.insert callId
            (txnId, plain (s.turn txnId deadlinePassed call).2.2) } := by
      rw [Run.run_cons, Run.run_nil, EntrySystem.step, hplain]
      simp only
      rw [← h.entry, hstep]
    refine ⟨[.advance callId timedOut], ?_⟩
    rw [hrun]
    refine ⟨rfl, fun i => ?_, h.nextCallId.trans hlength.symm⟩
    by_cases heq : i = callId
    · rw [heq, AList.lookup_insert, after, callsAfter_self hcall]
      rfl
    · rw [AList.lookup_insert_ne heq]
      exact (hothers i heq).symm

theorem Refines.step {s : WaitingEntry} {t : EntrySystem} (h : Refines s t) (action : EntryStep) :
    ∃ actions, Refines (s.step action) (Run.run EntrySystem.step t actions) := by
  cases action with
  | tryAcquire txnId mode => exact ⟨[.tryAcquire txnId mode], h.invoke txnId _⟩
  | acquire txnId mode => exact ⟨[.acquire txnId mode], h.invoke txnId _⟩
  | upgrade txnId targetMode => exact ⟨[.upgrade txnId targetMode], h.invoke txnId _⟩
  | release txnId => exact ⟨[.release txnId], h.invoke txnId _⟩
  | advance callId deadlinePassed =>
      rw [WaitingEntry.step]
      split
      · exact ⟨[], h⟩
      · next txnId call hcall => exact h.advance hcall deadlinePassed

/-- **The queue and the condition variable change nothing for the holders.**  Every run is one of
the plain system, with the same holders and the same results of the calls; so any two holders
have modes that go with each other. -/
theorem refines_run (steps : List EntryStep) :
    (∃ actions, Refines (Run.run step init steps) (Run.run EntrySystem.step EntrySystem.init actions)) ∧
      (Run.run step init steps).entry.Compatible := by
  obtain ⟨actions, hrefines⟩ := Run.exists_run (R := Refines) (fun _ _ action h => h.step action)
    refines_init steps
  refine ⟨⟨actions, hrefines⟩, ?_⟩
  rw [hrefines.entry]
  exact Run.invariant (fun t : EntrySystem => t.entry.Compatible) EntrySystem.compatible_step
    LockEntry.compatible_new actions

end WaitingEntry
end Crabstash

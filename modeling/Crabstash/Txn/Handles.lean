import Crabstash.Txn.Closing

/-!
# Handles

The public interface.  A step uses a handle only while it is there, and `commit` and `abort`
take it while nobody else uses it (`Allowed`).  Once one of them has returned, nothing should
mention the transaction: no lock, no wait, no registration (`Clean`).

The clean-up stands at the end of `commit`, behind every `?`: a commit that returns an error
leaves everything where it is, for good, since the handle is gone.  So the condition
(`ReadyStep`) is that nothing makes the commit return early, and that no call of another
transaction adds a wait for one that is no longer registered.  The commit of a read-only
transaction always returns early, since nobody gives it a commit timestamp.
-/

namespace Crabstash

open Crabstash.Action

/-- The system, and the transactions whose handles are gone. -/
structure TxnHandles where
  system : TxnSystem
  consumed : List ℕ

namespace TxnHandles

/-- No transaction has begun and no handle has been given up. -/
def init (storage : Lsm) (config : LockConfig) : TxnHandles :=
  { system := TxnSystem.init storage config, consumed := [] }

/-- The transaction whose handle a step borrows. -/
def borrows : TxnStep → Option ℕ
  | .get txnId _ => some txnId
  | .write txnId _ => some txnId
  | _ => none

/-- The transaction whose handle a step takes. -/
def takes : TxnStep → Option ℕ
  | .commit txnId _ => some txnId
  | .abort txnId => some txnId
  | _ => none

/-- A handle is used while it is there, and taken while nobody uses it. -/
def Allowed (h : TxnHandles) (action : TxnStep) : Prop :=
  (∀ txnId ∈ borrows action, txnId ∉ h.consumed) ∧
    ∀ txnId ∈ takes action, txnId ∉ h.consumed ∧ h.system.busy txnId = false ∧
      (h.system.engine.txns.lookup txnId).isSome = true

instance (h : TxnHandles) (action : TxnStep) : Decidable (h.Allowed action) :=
  inferInstanceAs (Decidable ((∀ txnId ∈ borrows action, _) ∧ ∀ txnId ∈ takes action, _))

/-- A step that a caller with these handles can take; any other one changes nothing. -/
def step (hashKey : Bytes → UInt64) (h : TxnHandles) (action : TxnStep) : TxnHandles :=
  if h.Allowed action then
    { system := h.system.step hashKey action, consumed := (takes action).toList ++ h.consumed }
  else h

/-- The `commit` or `abort` of the transaction has returned. -/
def Returned (h : TxnHandles) (txnId : ℕ) : Prop :=
  txnId ∈ h.consumed ∧ h.system.commits.lookup txnId = none ∧ h.system.busy txnId = false

/-- Nothing makes a commit return early, and waits are for registered transactions. -/
def ReadyStep (h : TxnHandles) : TxnStep → Prop
  | .continueCommit txnId _ faults =>
      ∀ e ∈ h.system.committing txnId, h.system.CommitReady faults e.1 e.2
  | .advance callId _ => ∀ call ∈ h.system.calls.lookup callId, h.system.WaitsReady call
  | _ => True

instance (h : TxnHandles) (txnId : ℕ) : Decidable (h.Returned txnId) :=
  inferInstanceAs (Decidable (_ ∧ _ ∧ _))

instance (h : TxnHandles) (action : TxnStep) : Decidable (h.ReadyStep action) :=
  match action with
  | .begin _ _ _ => inferInstanceAs (Decidable True)
  | .continueBegin _ _ => inferInstanceAs (Decidable True)
  | .get _ _ => inferInstanceAs (Decidable True)
  | .write _ _ => inferInstanceAs (Decidable True)
  | .commit _ _ => inferInstanceAs (Decidable True)
  | .continueCommit txnId _ _ => inferInstanceAs (Decidable (∀ e ∈ h.system.committing txnId, _))
  | .abort _ => inferInstanceAs (Decidable True)
  | .advance callId _ => inferInstanceAs (Decidable (∀ call ∈ h.system.calls.lookup callId, _))
  | .onStorage _ => inferInstanceAs (Decidable True)

/-! ## The invariant -/

/-- What a run keeps: a handle that has not been given up belongs to an open transaction, one
that has to a closing one. -/
structure Tidy (h : TxnHandles) : Prop where
  locked : h.system.Locked
  registered : h.system.engine.Registered
  fresh : h.system.CallsFresh
  opened : ∀ txnId, txnId ∉ h.consumed → h.system.Open txnId
  closing : ∀ txnId ∈ h.consumed, h.system.Known txnId ∧ h.system.Closing txnId

theorem tidy_init (storage : Lsm) (config : LockConfig) : (init storage config).Tidy where
  locked := TxnSystem.locked_init storage config
  registered := MvccEngine.registered_new storage
  fresh := by
    intro callId call hlookup
    contradiction
  opened := by
    intro txnId _
    refine ⟨rfl, ?_, ?_⟩
    · intro callId call hlookup
      contradiction
    · rintro ⟨txn, hlookup⟩
      contradiction
  closing := by
    intro txnId hmem
    exact absurd hmem List.not_mem_nil

section

variable {hashKey : Bytes → UInt64} {h : TxnHandles}

/-- A transaction is never forgotten. -/
theorem Tidy.known (htidy : h.Tidy) (action : TxnStep) {txnId : ℕ}
    (hknown : h.system.Known txnId) : (h.system.step hashKey action).Known txnId := by
  obtain ⟨txn, hlookup⟩ := hknown
  obtain ⟨txn', hlookup', -⟩ :=
    (TxnSystem.evolves_step hashKey htidy.locked action).known txnId txn hlookup
  exact ⟨txn', hlookup'⟩

theorem Tidy.apart (htidy : h.Tidy) {action : TxnStep} (hready : h.ReadyStep action) {txnId : ℕ}
    (hne : h.system.actor action ≠ some txnId) :
    h.system.Apart txnId (h.system.step hashKey action) := by
  apply TxnSystem.apart_step hashKey htidy.locked htidy.fresh hne
  rintro callId choice rfl call hcall
  exact hready call hcall

/-- A handle that is taken is on its way. -/
theorem Tidy.taken (htidy : h.Tidy) {action : TxnStep} (hallowed : h.Allowed action) {txnId : ℕ}
    (htakes : takes action = some txnId) : (h.system.step hashKey action).Closing txnId := by
  obtain ⟨hthere, hidle, hsome⟩ := hallowed.2 txnId htakes
  have hknown : h.system.Known txnId := Option.isSome_iff_exists.mp hsome
  have hopen := htidy.opened txnId hthere
  cases action with
  | commit other physical =>
      obtain rfl : other = txnId := Option.some.inj htakes
      exact hopen.commit hknown hidle physical
  | abort other =>
      obtain rfl : other = txnId := Option.some.inj htakes
      exact hopen.abort htidy.registered htidy.locked hknown hidle
  | _ => contradiction

/-- A step of the transaction itself, when its handle is gone. -/
theorem Tidy.own (htidy : h.Tidy) {action : TxnStep} (hallowed : h.Allowed action)
    (hready : h.ReadyStep action) {txnId : ℕ} (hgone : txnId ∈ h.consumed)
    (hactor : h.system.actor action = some txnId) :
    (h.system.step hashKey action).Closing txnId := by
  obtain ⟨hknown, hclosing⟩ := htidy.closing txnId hgone
  cases action with
  | begin isolation physical timedOut => contradiction
  | onStorage storage => contradiction
  | continueBegin other choice =>
      obtain rfl : other = txnId := Option.some.inj hactor
      -- it has begun, so no `begin` of it is under way
      have hstarting : h.system.starting.lookup other = none := by
        by_contra hsome
        obtain ⟨⟨isolation, startTs, lock⟩, hlookup⟩ := Option.ne_none_iff_exists'.mp hsome
        exact (htidy.locked.starting other isolation startTs lock hlookup).2.1 hknown
      rw [TxnSystem.step, hstarting]
      exact hclosing
  -- nobody can call with a handle that is gone
  | get other key => exact absurd (Option.some.inj hactor ▸ hgone) (hallowed.1 other rfl)
  | write other op => exact absurd (Option.some.inj hactor ▸ hgone) (hallowed.1 other rfl)
  | commit other physical => exact absurd (Option.some.inj hactor ▸ hgone) (hallowed.2 other rfl).1
  | abort other => exact absurd (Option.some.inj hactor ▸ hgone) (hallowed.2 other rfl).1
  | continueCommit other order faults =>
      obtain rfl : other = txnId := Option.some.inj hactor
      apply hclosing.continueCommit htidy.locked htidy.registered
      intro txn progress hcommitting
      exact hready (txn, progress) hcommitting
  | advance callId choice =>
      cases hcall : h.system.calls.lookup callId with
      | none =>
          rw [TxnSystem.actor, hcall] at hactor
          contradiction
      | some call =>
          rw [TxnSystem.actor, hcall] at hactor
          simp only [TxnSystem.step, hcall]
          exact hclosing.advance htidy.registered htidy.locked hcall (Option.some.inj hactor)
            (h.system.advance_effect hashKey callId choice call)

theorem Tidy.step (htidy : h.Tidy) {action : TxnStep} (hready : h.ReadyStep action) :
    (h.step hashKey action).Tidy := by
  rw [TxnHandles.step]
  split
  · next hallowed =>
      refine ⟨htidy.locked.step hashKey action,
        TxnSystem.registered_step htidy.locked htidy.registered action, htidy.fresh.step action,
        ?_, ?_⟩
      · intro txnId hnot
        rw [List.mem_append, Option.mem_toList, not_or] at hnot
        by_cases hactor : h.system.actor action = some txnId
        · apply (htidy.opened txnId hnot.2).step htidy.locked hactor
          · rintro physical rfl
            exact hnot.1 rfl
          · rintro rfl
            exact hnot.1 rfl
        · exact (htidy.apart hready hactor).opened (htidy.opened txnId hnot.2)
      · intro txnId hmem
        rw [List.mem_append, Option.mem_toList] at hmem
        rcases hmem with htakes | hgone
        · have hknown : h.system.Known txnId :=
            Option.isSome_iff_exists.mp (hallowed.2 txnId htakes).2.2
          exact ⟨htidy.known action hknown, htidy.taken hallowed htakes⟩
        · obtain ⟨hknown, hclosing⟩ := htidy.closing txnId hgone
          refine ⟨htidy.known action hknown, ?_⟩
          by_cases hactor : h.system.actor action = some txnId
          · exact htidy.own hallowed hready hgone hactor
          · exact (htidy.apart hready hactor).closing hclosing
  · exact htidy

end

/-- In every run in which no commit returns early and waits are for registered transactions,
nothing is left of a transaction that is closed, and it is in nobody's way. -/
theorem clean_run (hashKey : Bytes → UInt64) (storage : Lsm) (config : LockConfig)
    (steps : List TxnStep)
    (hsteps : Run.Along (step hashKey) ReadyStep (init storage config) steps) (txnId : ℕ)
    (hreturned : (Run.run (step hashKey) (init storage config) steps).Returned txnId) :
    (Run.run (step hashKey) (init storage config) steps).system.Clean txnId ∧
      (Run.run (step hashKey) (init storage config) steps).system.locks.Available txnId := by
  have htidy : (Run.run (step hashKey) (init storage config) steps).Tidy :=
    hsteps.invariant Tidy (fun _ _ htidy hready => htidy.step hready) (tidy_init storage config)
  obtain ⟨hgone, hcommits, hidle⟩ := hreturned
  obtain ⟨-, hclosing⟩ := htidy.closing txnId hgone
  cases hclosing with
  | closed _ _ hclean => exact ⟨hclean, hclean.locks.available⟩
  | committing progress hcommitting =>
      rw [hcommits] at hcommitting
      contradiction
  | calling callId call _ honly => exact absurd honly.isOf (TxnSystem.not_busy hidle honly.lookup)

/-! ## A commit that returns early -/

/-- The runs of the examples, with the first byte of a key as its hash. -/
def runOf (steps : List TxnStep) : TxnHandles :=
  Run.run (step fun key => key.headD 0 |>.toUInt64)
    (init (Lsm.openDir 100 Dir.empty) LockConfig.default) steps

/-- One transaction writes a key and commits. -/
def closedCommit : List TxnStep :=
  CommitHistory.beginSnapshot 1 ++ CommitHistory.putKey 1 0 [7] ++
    CommitHistory.commitAll 1 1 [7] ++ [.advance 1 .next]

theorem clean_closedCommit :
    (runOf closedCommit).system.Clean 1 ∧ (runOf closedCommit).system.locks.Available 1 :=
  clean_run _ _ _ closedCommit (by decide +kernel) 1 (by decide +kernel)

/-- `begin` with its three steps. -/
def beginSerializable (txnId : ℕ) : List TxnStep :=
  .begin .serializable txnId false :: List.replicate 3 (.continueBegin txnId .next)

/-- The first transaction has read what the second writes, and then writes another key; its
commit returns an error. -/
def refusedCommit : List TxnStep :=
  beginSerializable 1 ++ beginSerializable 2 ++ [.get 1 [7]] ++
    CommitHistory.putKey 2 0 [7] ++ CommitHistory.commitAll 2 1 [7] ++
    CommitHistory.putKey 1 2 [8] ++
    (.commit 1 1 :: List.replicate 2 (.continueCommit 1 .inserted noFaults))

theorem not_clean_refusedCommit :
    (runOf refusedCommit).Returned 1 ∧ ¬ (runOf refusedCommit).system.Clean 1 := by
  refine ⟨by decide +kernel, fun hclean => ?_⟩
  have hkeys := hclean.locks.keys [8]
  exact absurd hkeys (by decide +kernel)

end TxnHandles
end Crabstash

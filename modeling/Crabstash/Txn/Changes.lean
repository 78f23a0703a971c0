import Crabstash.Txn.FailedCommit
import Crabstash.Txn.SafeSnapshots

/-!
# What a step does to a transaction

A transaction is changed in six ways and no others (`TxnChange`): it reads a key, a write is
stored, it is prepared, committed or aborted, or it stays as it is.  A transaction that nobody
knew has just begun.

From this it follows that the commit of a read-only transaction never succeeds.
`TransactionManager::commit` wants the commit timestamp that `prepare_commit` has set, and
`commit` does not call `prepare_commit` for a read-only transaction, at no step of any run.
-/

namespace Crabstash

open Crabstash.Action

namespace MvccEngine

variable {s : MvccEngine} {txn : Transaction}

theorem managerCommit_txns (s : MvccEngine) (txn : Transaction) :
    (exec (managerCommit txn) s).2.txns = s.txns ∨
      txn.isActive = true ∧ txn.commitTs ≠ none ∧ (exec (managerCommit txn) s).2.txns =
        s.txns.insert txn.id { txn with state := .committed } := by
  rw [exec_managerCommit]
  cases hcommit : s.txnManager.commit txn with
  | error e => exact Or.inl rfl
  | ok result =>
      obtain ⟨hactive, hcommitTs, htxn'⟩ := TransactionManager.commit_ok hcommit
      refine Or.inr ⟨hactive, hcommitTs, ?_⟩
      show s.txns.insert result.2.id result.2 = _
      rw [htxn']

theorem commitReadOnly_txns (s : MvccEngine) (txn : Transaction) :
    (exec (commitReadOnly txn) s).2.txns = (exec (managerCommit txn) s).2.txns := by
  obtain hsame | ⟨-, htold⟩ := commitReadOnly_cases s txn
  · rw [hsame]
  · rw [htold]

/-- A transaction that has not been prepared is not committed. -/
theorem exec_commitReadOnly_of_none (s : MvccEngine) (hnone : txn.commitTs = none) :
    exec (commitReadOnly txn) s = (.error .transactionAborted, s) := by
  have hrefused : s.txnManager.commit txn = .error .transactionAborted := by
    unfold TransactionManager.commit
    rw [hnone]
    split <;> rfl
  have hmanager := exec_managerCommit s txn
  rw [hrefused] at hmanager
  rw [commitReadOnly, exec_bind_error hmanager]

/-- What a step of a commit does to the transactions. -/
theorem commitStep_txns (faults : Faults IoCall) (order : IterOrder) (s : MvccEngine)
    (txn : Transaction) (progress : CommitProgress) :
    (exec (commitStep faults order txn progress) s).2.txns = s.txns ∨
      (∃ commitTs, progress = .validated commitTs ∧
        (exec (commitStep faults order txn progress) s).2.txns =
          s.txns.insert txn.id { txn with commitTs := some commitTs }) ∨
      txn.isActive = true ∧ txn.commitTs ≠ none ∧
        (exec (commitStep faults order txn progress) s).2.txns =
          s.txns.insert txn.id { txn with state := .committed } := by
  have hpart := commitStep_part faults order s txn progress
  generalize exec (commitStep faults order txn progress) s = result at hpart ⊢
  cases hpart with
  | readOnly =>
      rw [commitReadOnly_txns]
      exact (managerCommit_txns s txn).imp id Or.inr
  | validates commitTs hserializable =>
      rw [exec_validateSsi s commitTs hserializable]
      exact Or.inl rfl
  | prepares commitTs => exact Or.inr (Or.inl ⟨commitTs, rfl, rfl⟩)
  | finishes => exact (managerCommit_txns s txn).imp id Or.inr
  | _ => exact Or.inl rfl

end MvccEngine

namespace TxnSystem

/-- The write that a step stores, and the transaction into whose write set it comes. -/
def writtenBy (s : TxnSystem) : TxnStep → Option (ℕ × BatchOperation)
  | .advance callId _ =>
      match s.calls.lookup callId with
      | some (.store txnId op) => (s.unlocked txnId).map fun _ => (txnId, op)
      | _ => none
  | _ => none

/-- What a step makes of a transaction that has begun. -/
inductive TxnChange (s : TxnSystem) (action : TxnStep) (txn : Transaction) : Transaction → Prop
  | same (hkeeps : ∀ op, s.writtenBy action ≠ some (txn.id, op)) : TxnChange s action txn txn
  | reads {key : Bytes} (haction : action = .get txn.id key) :
      TxnChange s action txn (txn.recordRead key)
  | stores {op : BatchOperation} (hwritten : s.writtenBy action = some (txn.id, op)) :
      TxnChange s action txn { txn with writeSet := txn.writeSet.apply op }
  | prepares {order : IterOrder} {faults : Faults IoCall} {commitTs : ℕ}
      (haction : action = .continueCommit txn.id order faults)
      (hcommit : s.commits.lookup txn.id = some (.validated commitTs)) :
      TxnChange s action txn { txn with commitTs := some commitTs }
  | commits {order : IterOrder} {faults : Faults IoCall}
      (haction : action = .continueCommit txn.id order faults) (hactive : txn.isActive = true)
      (hcommitTs : txn.commitTs ≠ none) :
      TxnChange s action txn { txn with state := .committed }
  | aborts (haction : action = .abort txn.id) : TxnChange s action txn { txn with state := .aborted }

section

variable {s : TxnSystem} {action : TxnStep} {txn : Transaction}

theorem of_writtenBy (hashKey : Bytes → UInt64) {txnId : ℕ} {op : BatchOperation}
    (hwritten : s.writtenBy action = some (txnId, op)) : ∃ txn, s.unlocked txnId = some txn ∧
      (s.step hashKey action).engine = s.engine.storeWrite txn op := by
  cases action with
  | advance callId choice =>
      rw [writtenBy] at hwritten
      split at hwritten
      · next txnId' op' hcall =>
          obtain ⟨txn, hunlocked, heq⟩ := Option.map_eq_some_iff.mp hwritten
          obtain ⟨rfl, rfl⟩ := Prod.mk.inj heq
          refine ⟨txn, hunlocked, ?_⟩
          rw [step, hcall]
          simp only [advance, hunlocked]
          rfl
      · contradiction
  | _ => contradiction

/-- What a step makes of the transactions. -/
inductive TxnsEffect (s : TxnSystem) (action : TxnStep) : HashMap ℕ Transaction → Prop
  | same (hkeeps : s.writtenBy action = none) : TxnsEffect s action s.engine.txns
  | changes (txn : Transaction) {txn' : Transaction} (hlookup : s.engine.txns.lookup txn.id = some txn)
      (hkeeps : ∀ write ∈ s.writtenBy action, write.1 = txn.id)
      (hchange : TxnChange s action txn txn') :
      TxnsEffect s action (s.engine.txns.insert txn.id txn')
  | begins {txnId startTs : ℕ} {isolation : IsolationLevel} {lock : LockCall} {choice : LockChoice}
      (haction : action = .continueBegin txnId choice)
      (hstarting : s.starting.lookup txnId = some (isolation, startTs, lock)) :
      TxnsEffect s action (s.engine.txns.insert txnId (Transaction.new txnId startTs isolation))

theorem txns_step (hashKey : Bytes → UInt64) (h : s.Locked) (action : TxnStep) :
    TxnsEffect s action (s.step hashKey action).engine.txns := by
  cases hwritten : s.writtenBy action with
  | some write =>
      obtain ⟨txnId, op⟩ := write
      obtain ⟨txn, hunlocked, hengine⟩ := of_writtenBy hashKey hwritten
      have hlookup := lookup_of_unlocked hunlocked
      obtain rfl := h.ids txnId txn hlookup
      rw [hengine]
      refine .changes txn hlookup (fun write hwrite => ?_) (.stores hwritten)
      rw [hwritten] at hwrite
      exact (congrArg Prod.fst (Option.some.inj hwrite)).symm
  | none =>
      -- a step that writes nothing changes at most what a call reads or its status
      have hkeeps : ∀ {txnId : ℕ}, ∀ write ∈ s.writtenBy action, write.1 = txnId := by
        rw [hwritten]
        intro txnId write hwrite
        contradiction
      have hsame : ∀ {txns : HashMap ℕ Transaction}, txns = s.engine.txns →
          TxnsEffect s action txns := fun htxns => htxns ▸ .same hwritten
      have heffect := s.step_effect hashKey action
      generalize s.step hashKey action = s' at heffect ⊢
      cases heffect with
      | nothing => exact hsame rfl
      | draws => exact hsame rfl
      | registers _ hstarting => exact .begins rfl hstarting
      | starts => exact hsame rfl
      | @gets txnId txn hunlocked key =>
          have hlookup := lookup_of_unlocked hunlocked
          obtain rfl := h.ids txnId txn hlookup
          unfold MvccEngine.get
          split
          · exact hsame rfl
          · have hid : (txn.recordRead key).id = txn.id := by
              unfold Transaction.recordRead
              split <;> rfl
            show TxnsEffect s _ (s.engine.txns.insert (txn.recordRead key).id (txn.recordRead key))
            rw [hid]
            exact .changes txn hlookup hkeeps (.reads rfl)
      | writes => exact hsame rfl
      | commits => exact hsame rfl
      | @proceeds txnId txn progress order faults hcommitting =>
          have hlookup := lookup_of_committing hcommitting
          obtain rfl := h.ids txnId txn hlookup
          rw [engine_proceed]
          obtain htxns | ⟨commitTs, rfl, htxns⟩ | ⟨hactive, hcommitTs, htxns⟩ :=
            MvccEngine.commitStep_txns faults order s.engine txn progress
          · exact hsame htxns
          · rw [htxns]
            exact .changes txn hlookup hkeeps (.prepares rfl (commits_of_committing hcommitting))
          · rw [htxns]
            exact .changes txn hlookup hkeeps (.commits rfl hactive hcommitTs)
      | @aborts txnId txn hunlocked =>
          have hlookup := lookup_of_unlocked hunlocked
          obtain rfl := h.ids txnId txn hlookup
          exact .changes txn hlookup hkeeps (.aborts rfl)
      | @advances callId choice call _ hcall hadvance =>
          cases hadvance with
          | granted => exact hsame rfl
          | refused => exact hsame rfl
          | locks => exact hsame rfl
          | @records txnId isolation op =>
              apply hsame
              show (s.engine.recordWrite hashKey txnId isolation op.key).txns = _
              unfold MvccEngine.recordWrite
              split <;> rfl
          | blocked => exact hsame rfl
          | @stores txnId op txn hunlocked =>
              have hstored : s.writtenBy (.advance callId choice) = some (txnId, op) := by
                simp [writtenBy, hcall, hunlocked]
              -- this step would be one that writes
              rw [hwritten] at hstored
              contradiction
          | @aborts txnId isolation =>
              apply hsame
              show (s.engine.ssiAbort txnId isolation).txns = _
              unfold MvccEngine.ssiAbort
              split <;> rfl
          | released => exact hsame rfl
          | releases => exact hsame rfl
      | onStorage => exact hsame rfl

/-- A transaction that has begun, after a step. -/
theorem change_step (hashKey : Bytes → UInt64) (h : s.Locked)
    (hlookup : s.engine.txns.lookup txn.id = some txn) (action : TxnStep) :
    ∃ txn', (s.step hashKey action).engine.txns.lookup txn.id = some txn' ∧
      TxnChange s action txn txn' := by
  have heffect := txns_step hashKey h action
  generalize (s.step hashKey action).engine.txns = txns at heffect
  cases heffect with
  | same hkeeps =>
      refine ⟨txn, hlookup, .same fun op => ?_⟩
      rw [hkeeps]
      simp
  | @changes other txn' hother hkeeps hchange =>
      by_cases heq : txn.id = other.id
      · rw [heq, hother] at hlookup
        rw [heq, AList.lookup_insert, ← Option.some.inj hlookup]
        exact ⟨txn', rfl, hchange⟩
      · rw [AList.lookup_insert_ne heq]
        exact ⟨txn, hlookup, .same fun op hwritten => heq (hkeeps (txn.id, op) hwritten)⟩
  | @begins txnId startTs isolation lock choice haction hstarting =>
      obtain ⟨-, hunknown, -⟩ := h.starting txnId isolation startTs lock hstarting
      have hne : txn.id ≠ txnId := by
        rintro rfl
        exact hunknown ⟨txn, hlookup⟩
      refine ⟨txn, (AList.lookup_insert_ne hne).trans hlookup, .same fun op => ?_⟩
      rw [haction]
      simp [writtenBy]

/-- A transaction that is known after a step only has begun in it. -/
theorem begun_step (hashKey : Bytes → UInt64) (h : s.Locked) {action : TxnStep} {txnId : ℕ}
    {txn : Transaction} (hnone : s.engine.txns.lookup txnId = none)
    (hlookup : (s.step hashKey action).engine.txns.lookup txnId = some txn) :
    ∃ isolation startTs lock choice, action = .continueBegin txnId choice ∧
      s.starting.lookup txnId = some (isolation, startTs, lock) ∧
        txn = Transaction.new txnId startTs isolation := by
  have heffect := txns_step hashKey h action
  generalize (s.step hashKey action).engine.txns = txns at heffect hlookup
  cases heffect with
  | same =>
      rw [hnone] at hlookup
      contradiction
  | changes other hother =>
      rcases lookup_insert_cases hlookup with ⟨rfl, -⟩ | hold
      · rw [hother] at hnone
        contradiction
      · rw [hnone] at hold
        contradiction
  | begins haction hstarting =>
      rcases lookup_insert_cases hlookup with ⟨rfl, rfl⟩ | hold
      · exact ⟨_, _, _, _, haction, hstarting, rfl⟩
      · rw [hnone] at hold
        contradiction

/-! ## Read-only transactions -/

/-- Nobody gives a read-only transaction a commit timestamp. -/
structure Unprepared (s : TxnSystem) : Prop where
  known : ∀ txnId progress, s.commits.lookup txnId = some progress → s.Known txnId
  commitTs : ∀ txnId txn, s.engine.txns.lookup txnId = some txn →
    txn.isolation.isReadOnly = true → txn.commitTs = none
  drawn : ∀ txnId txn progress, s.engine.txns.lookup txnId = some txn →
    s.commits.lookup txnId = some progress → txn.isolation.isReadOnly = true →
      ∃ commitTs, progress = .drawn commitTs

theorem unprepared_init (storage : Lsm) (config : LockConfig) : (init storage config).Unprepared where
  known := by
    intro txnId progress hcommit
    contradiction
  commitTs := by
    intro txnId txn hlookup
    contradiction
  drawn := by
    intro txnId txn progress hlookup
    contradiction

theorem TxnChange.isolation {txn' : Transaction} (h : TxnChange s action txn txn') :
    txn'.isolation = txn.isolation := by
  cases h with
  | reads =>
      unfold Transaction.recordRead
      split <;> rfl
  | _ => rfl

theorem Unprepared.step (hashKey : Bytes → UInt64) (hunprepared : s.Unprepared) (h : s.Locked)
    (action : TxnStep) : (s.step hashKey action).Unprepared where
  known := by
    intro txnId progress' hcommit'
    apply known_step h
    cases hcommit : s.commits.lookup txnId with
    | none =>
        obtain ⟨_, txn, -, hunlocked, -⟩ := commit_of_none hcommit hcommit'
        exact ⟨txn, lookup_of_unlocked hunlocked⟩
    | some progress => exact hunprepared.known txnId progress hcommit
  commitTs := by
    intro txnId txn' hlookup' hreadOnly
    cases hlookup : s.engine.txns.lookup txnId with
    | none =>
        obtain ⟨_, _, _, _, -, -, rfl⟩ := begun_step hashKey h hlookup hlookup'
        rfl
    | some txn =>
        obtain rfl := h.ids txnId txn hlookup
        obtain ⟨txn'', hlookup'', hchange⟩ := change_step hashKey h hlookup action
        obtain rfl : txn' = txn'' := Option.some.inj (hlookup'.symm.trans hlookup'')
        rw [hchange.isolation] at hreadOnly
        have hnone := hunprepared.commitTs txn.id txn hlookup hreadOnly
        cases hchange with
        | reads =>
            unfold Transaction.recordRead
            split <;> exact hnone
        | prepares _ hcommit =>
            obtain ⟨_, heq⟩ := hunprepared.drawn txn.id txn _ hlookup hcommit hreadOnly
            contradiction
        | _ => exact hnone
  drawn := by
    intro txnId txn' progress' hlookup' hcommit' hreadOnly
    cases hcommit : s.commits.lookup txnId with
    | none =>
        obtain ⟨_, _, -, -, hprogress⟩ := commit_of_none hcommit hcommit'
        exact ⟨_, hprogress⟩
    | some progress =>
        obtain ⟨txn, hlookup⟩ := hunprepared.known txnId progress hcommit
        obtain rfl := h.ids txnId txn hlookup
        obtain ⟨txn'', hlookup'', hchange⟩ := change_step hashKey h hlookup action
        obtain rfl : txn' = txn'' := Option.some.inj (hlookup'.symm.trans hlookup'')
        rw [hchange.isolation] at hreadOnly
        obtain ⟨commitTs, rfl⟩ := hunprepared.drawn txn.id txn progress hlookup hcommit hreadOnly
        by_cases hown : ∃ order faults, action = .continueCommit txn.id order faults
        · obtain ⟨order, faults, rfl⟩ := hown
          obtain ⟨hcontinued, -⟩ := continued_of_some hlookup hcommit hcommit'
          -- the only step of its commit is the last one
          rw [commitStep_drawn, MvccSystem.commitNext, if_pos hreadOnly, exec_bind_pure] at hcontinued
          exact absurd hcontinued (MvccEngine.map_none_ne _ _)
        · push Not at hown
          obtain ⟨-, hsame⟩ := frozen_step hashKey h hlookup hcommit hown
          rw [hsame] at hcommit'
          exact ⟨commitTs, (Option.some.inj hcommit').symm⟩

theorem unprepared_run (hashKey : Bytes → UInt64) (storage : Lsm) (config : LockConfig)
    (steps : List TxnStep) :
    (Run.run (step hashKey) (init storage config) steps).Unprepared := by
  have hboth := Run.invariant (fun s => Locked s ∧ Unprepared s)
    (fun s action hs => ⟨hs.1.step hashKey action, hs.2.step hashKey hs.1 action⟩)
    ⟨locked_init storage config, unprepared_init storage config⟩ steps
  exact hboth.2

/-- So its commit fails. -/
theorem Unprepared.commit_readOnly (hunprepared : s.Unprepared) {txnId : ℕ}
    (hlookup : s.engine.txns.lookup txnId = some txn) (hreadOnly : txn.isolation.isReadOnly = true)
    (order : IterOrder) (faults : ℕ → Faults IoCall) (physical : ℕ) :
    (exec (MvccEngine.commit order faults txn physical) s.engine).1 =
      .error .transactionAborted := by
  have hnone := hunprepared.commitTs txnId txn hlookup hreadOnly
  rw [MvccEngine.exec_commit_readOnly s.engine physical hreadOnly,
    MvccEngine.exec_commitReadOnly_of_none _ hnone]

end
end TxnSystem
end Crabstash

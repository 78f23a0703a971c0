import Crabstash.Txn.TwoValidators

/-!
# What a step does to the sets

The `SSIManager` has a set for every serializable transaction that is under way.  It comes in when
the transaction begins, gets what is read and written, and goes when the transaction is accepted
or aborted (`SetsEffect`; `SetChange` for one of the sets).  A validation that refuses leaves the
conflicts it found in it.

The write index has what the accepted have left, and nothing else (`mem_writersOf_step`): with an
entry comes the validation (`Validation`) that it is from.
-/

namespace Crabstash

open Crabstash.Action

namespace SSIManager

variable {s : SSIManager} {txnId readTs commitTs : ℕ}

/-- A transaction that is accepted leaves its keys in the index, and its set goes. -/
theorem of_accepts (haccepts : s.accepts txnId readTs commitTs [] = true) :
    ∃ rw, s.activeTxns.lookup txnId = some rw ∧
      (s.validateAndCommit txnId readTs commitTs).2.activeTxns = s.activeTxns.erase txnId ∧
        ∀ hash, (s.validateAndCommit txnId readTs commitTs).2.writersOf hash =
          s.writersOf hash ++ List.replicate (rw.writeKeys.count hash)
            ⟨commitTs, (s.activeStartTs.lookup txnId).getD readTs⟩ := by
  unfold validateAndCommit
  obtain ⟨s', hs', ⟨hresult, -⟩ | ⟨_, -, hrefuses⟩⟩ := validate_cases s txnId readTs commitTs []
  · obtain ⟨rw, outbound, hrw, -, heq⟩ := validate_ok hresult
    refine ⟨rw, hrw, ?_, fun hash => ?_⟩
    · rw [hs', heq]
      exact erase_insert_self txnId _ s.activeTxns
    · rw [hs', heq, writersOf_publish]
      rfl
  · rw [haccepts] at hrefuses
    contradiction

/-- A transaction that is refused keeps its set, with the conflicts that were found. -/
theorem of_not_accepts (haccepts : s.accepts txnId readTs commitTs [] = false) :
    (s.validateAndCommit txnId readTs commitTs).2 = s ∨
      ∃ rw outbound, s.activeTxns.lookup txnId = some rw ∧
        (s.validateAndCommit txnId readTs commitTs).2 =
          { s with
            activeTxns := s.activeTxns.insert txnId
              { rw with
                inboundConflicts :=
                  rw.inboundConflicts ++ s.findInboundConflicts rw txnId readTs commitTs
                outboundConflicts := outbound } } := by
  unfold validateAndCommit
  obtain ⟨s', hs', ⟨-, hrefuses⟩ | ⟨e, hresult, -⟩⟩ := validate_cases s txnId readTs commitTs []
  · rw [haccepts] at hrefuses
    contradiction
  · rw [hs']
    cases hactive : s.activeTxns.lookup txnId with
    | none =>
        rw [validateAndCommitWithKeys, hactive] at hresult
        exact Or.inl (Prod.mk.inj hresult).2.symm
    | some rw =>
        obtain ⟨outbound, heq⟩ := validate_error_of_active hactive hresult
        exact Or.inr ⟨rw, outbound, rfl, heq⟩

end SSIManager

/-- A validation that accepts: of which transaction, with which hashes, and the number that the
next transaction to begin will get. -/
structure Validation where
  txnId : ℕ
  startTs : ℕ
  commitTs : ℕ
  writeKeys : List UInt64
  nextTxnId : ℕ
  deriving DecidableEq, Repr

namespace TxnSystem

/-- The validation that a step is, if it accepts. -/
def validationBy (s : TxnSystem) : TxnStep → Option Validation
  | .continueCommit txnId _ _ =>
      match s.committing txnId with
      | some (txn, .drawn commitTs) =>
          if txn.isolation = .serializable ∧
              s.engine.ssiManager.accepts txn.id txn.startTs commitTs [] = true then
            (s.engine.ssiManager.activeTxns.lookup txn.id).map fun rw =>
              ⟨txn.id, txn.startTs, commitTs, rw.writeKeys, s.engine.nextTxnId⟩
          else none
      | _ => none
  | _ => none

/-- What a step makes of the sets. -/
inductive SetsEffect (hashKey : Bytes → UInt64) (s : TxnSystem) : TxnStep → MvccEngine → Prop
  | same {action : TxnStep} {engine : MvccEngine} (hnone : s.validationBy action = none)
      (hsets : engine.ssiManager.activeTxns = s.engine.ssiManager.activeTxns)
      (hindex : engine.ssiManager.writeIndex = s.engine.ssiManager.writeIndex) :
      SetsEffect hashKey s action engine
  | begins {txnId startTs : ℕ} {lock : LockCall} (choice : LockChoice)
      (hstarting : s.starting.lookup txnId = some (.serializable, startTs, lock)) :
      SetsEffect hashKey s (.continueBegin txnId choice)
        (s.engine.register .serializable txnId startTs)
  | reads {txn : Transaction} (hlookup : s.engine.txns.lookup txn.id = some txn)
      (hserializable : txn.isolation = .serializable) {key : Bytes}
      (hmissing : txn.writeSet.get key = none) :
      SetsEffect hashKey s (.get txn.id key) (s.engine.get hashKey txn key).2
  | records (callId : ℕ) (choice : LockChoice) (txnId : ℕ) (key : Bytes) :
      SetsEffect hashKey s (.advance callId choice)
        (s.engine.recordWrite hashKey txnId .serializable key)
  | validates {txn : Transaction} {commitTs : ℕ} (order : IterOrder) (faults : Faults IoCall)
      (hcommitting : s.committing txn.id = some (txn, .drawn commitTs))
      (hserializable : txn.isolation = .serializable) :
      SetsEffect hashKey s (.continueCommit txn.id order faults)
        { s.engine with
          ssiManager := (s.engine.ssiManager.validateAndCommit txn.id txn.startTs commitTs).2 }
  | aborts (callId : ℕ) (choice : LockChoice) {txnId : ℕ} (hended : s.Ended txnId) :
      SetsEffect hashKey s (.advance callId choice)
        { s.engine with ssiManager := s.engine.ssiManager.abortTxn txnId }

section

variable {hashKey : Bytes → UInt64} {s : TxnSystem} {action : TxnStep}

theorem validationBy_of_accepts {txn : Transaction} {commitTs : ℕ}
    (hcommitting : s.committing txn.id = some (txn, .drawn commitTs))
    (hserializable : txn.isolation = .serializable)
    (haccepts : s.engine.ssiManager.accepts txn.id txn.startTs commitTs [] = true)
    {rw : ReadWriteSet} (hrw : s.engine.ssiManager.activeTxns.lookup txn.id = some rw)
    (order : IterOrder) (faults : Faults IoCall) :
    s.validationBy (.continueCommit txn.id order faults) =
      some ⟨txn.id, txn.startTs, commitTs, rw.writeKeys, s.engine.nextTxnId⟩ := by
  rw [validationBy, hcommitting]
  simp only
  rw [if_pos ⟨hserializable, haccepts⟩, hrw]
  rfl

theorem validationBy_of_refuses {txn : Transaction} {commitTs : ℕ}
    (hcommitting : s.committing txn.id = some (txn, .drawn commitTs))
    (haccepts : s.engine.ssiManager.accepts txn.id txn.startTs commitTs [] = false)
    (order : IterOrder) (faults : Faults IoCall) :
    s.validationBy (.continueCommit txn.id order faults) = none := by
  rw [validationBy, hcommitting]
  simp only
  rw [if_neg]
  rw [haccepts]
  exact fun h => Bool.false_ne_true h.2

/-- The commit of a read-only transaction only takes it out of the starts. -/
theorem sets_commitReadOnly (s : MvccEngine) (txn : Transaction) :
    (exec (MvccEngine.commitReadOnly txn) s).2.ssiManager.activeTxns = s.ssiManager.activeTxns ∧
      (exec (MvccEngine.commitReadOnly txn) s).2.ssiManager.writeIndex =
        s.ssiManager.writeIndex := by
  have hmanager := MvccEngine.ssiManager_managerCommit s txn
  obtain hsame | ⟨-, htold⟩ := MvccEngine.commitReadOnly_cases s txn
  · rw [hsame, hmanager]
    exact ⟨rfl, rfl⟩
  · rw [htold, ← hmanager]
    exact ⟨rfl, rfl⟩

theorem setsEffect_proceeds {txn : Transaction} {progress : CommitProgress}
    (hcommitting : s.committing txn.id = some (txn, progress)) (order : IterOrder)
    (faults : Faults IoCall) :
    SetsEffect hashKey s (.continueCommit txn.id order faults)
      (exec (commitStep faults order txn progress) s.engine).2 := by
  have hsame : ∀ {engine : MvccEngine},
      s.validationBy (.continueCommit txn.id order faults) = none →
        engine.ssiManager = s.engine.ssiManager →
          SetsEffect hashKey s (.continueCommit txn.id order faults) engine := by
    intro engine hnone hssi
    exact .same hnone (by rw [hssi]) (by rw [hssi])
  have hpart := commitStep_part faults order s.engine txn progress
  generalize exec (commitStep faults order txn progress) s.engine = result at hpart ⊢
  cases hpart with
  | readOnly commitTs hreadOnly =>
      obtain ⟨hsets, hindex⟩ := sets_commitReadOnly s.engine txn
      refine .same ?_ hsets hindex
      rw [validationBy, hcommitting]
      refine if_neg fun h => ?_
      rw [h.1] at hreadOnly
      contradiction
  | validates commitTs hserializable =>
      rw [MvccEngine.exec_validateSsi s.engine commitTs hserializable]
      exact .validates order faults hcommitting hserializable
  | skips commitTs _ hother =>
      refine hsame ?_ rfl
      rw [validationBy, hcommitting]
      exact if_neg fun h => hother h.1
  -- `commit` of the transaction manager leaves the other manager alone
  | finishes =>
      refine hsame ?_ (MvccEngine.ssiManager_managerCommit s.engine txn)
      rw [validationBy, hcommitting]
  | _ =>
      refine hsame ?_ rfl
      rw [validationBy, hcommitting]

theorem sets_step (hashKey : Bytes → UInt64) (h : s.Locked) (action : TxnStep) :
    SetsEffect hashKey s action (s.step hashKey action).engine := by
  by_cases hown : ∃ txnId order faults, action = .continueCommit txnId order faults
  · obtain ⟨txnId, order, faults, rfl⟩ := hown
    rw [step]
    cases hcommitting : s.committing txnId with
    | none =>
        refine .same ?_ rfl rfl
        rw [validationBy, hcommitting]
    | some c =>
        obtain ⟨txn, progress⟩ := c
        obtain rfl := h.ids txnId txn (lookup_of_committing hcommitting)
        simp only
        rw [engine_proceed]
        exact setsEffect_proceeds hcommitting order faults
  -- no other step validates
  · have hnone : s.validationBy action = none := by
      cases action with
      | continueCommit txnId order faults => exact absurd ⟨txnId, order, faults, rfl⟩ hown
      | _ => rfl
    have hsame : ∀ {engine : MvccEngine}, engine.ssiManager = s.engine.ssiManager →
        SetsEffect hashKey s action engine := by
      intro engine hssi
      exact .same hnone (by rw [hssi]) (by rw [hssi])
    have heffect := s.step_effect hashKey action
    generalize s.step hashKey action = s' at heffect ⊢
    cases heffect with
    | @registers txnId startTs isolation lock _ choice hstarting =>
        cases isolation with
        | serializable => exact .begins choice hstarting
        | _ => exact .same rfl rfl rfl
    | @gets txnId txn hunlocked key =>
        have hlookup := lookup_of_unlocked hunlocked
        obtain rfl := h.ids txnId txn hlookup
        by_cases hserializable : txn.isolation = .serializable
        · cases hmissing : txn.writeSet.get key with
          | none => exact .reads hlookup hserializable hmissing
          | some value =>
              -- a read of an own write is not recorded
              apply hsame
              show (s.engine.get hashKey txn key).2.ssiManager = _
              rw [MvccEngine.get, hmissing]
        · apply hsame
          show (s.engine.get hashKey txn key).2.ssiManager = _
          unfold MvccEngine.get
          rw [if_neg hserializable]
          split <;> rfl
    | @proceeds txnId txn progress order faults => exact absurd ⟨txnId, order, faults, rfl⟩ hown
    | @advances callId choice call _ hcall hadvance =>
        cases hadvance with
        | @records txnId isolation op =>
            by_cases hserializable : isolation = .serializable
            · rw [hserializable]
              exact .records callId choice txnId op.key
            · apply hsame
              show (s.engine.recordWrite hashKey txnId isolation op.key).ssiManager = _
              rw [MvccEngine.recordWrite, if_neg hserializable]
        | @aborts txnId isolation =>
            show SetsEffect hashKey s _ (s.engine.ssiAbort txnId isolation)
            unfold MvccEngine.ssiAbort
            split
            · exact .aborts callId choice (h.calls callId (.ssiAbort txnId isolation) hcall)
            · exact hsame rfl
        | _ => exact hsame rfl
    | _ => exact hsame rfl

/-- What is in the index after a step was there before, or is of a transaction that the step
accepts. -/
theorem mem_writersOf_step (h : s.Locked) (hnoted : s.engine.Noted hashKey) (action : TxnStep)
    (hash : UInt64) (entry : WriteIndexEntry) :
    entry ∈ (s.step hashKey action).engine.ssiManager.writersOf hash ↔
      entry ∈ s.engine.ssiManager.writersOf hash ∨
        ∃ v ∈ s.validationBy action, hash ∈ v.writeKeys ∧ entry = ⟨v.commitTs, v.startTs⟩ := by
  have hsame : ∀ {ssiManager : SSIManager}, s.validationBy action = none →
      ssiManager.writeIndex = s.engine.ssiManager.writeIndex →
        (entry ∈ ssiManager.writersOf hash ↔ entry ∈ s.engine.ssiManager.writersOf hash ∨
          ∃ v ∈ s.validationBy action, hash ∈ v.writeKeys ∧ entry = ⟨v.commitTs, v.startTs⟩) := by
    intro ssiManager hnone hindex
    rw [SSIManager.writersOf, hindex, hnone]
    simp [SSIManager.writersOf]
  have heffect := sets_step hashKey h action
  generalize (s.step hashKey action).engine = engine at heffect ⊢
  cases heffect with
  | same hnone _ hindex => exact hsame hnone hindex
  | begins => exact hsame rfl rfl
  | @reads txn hlookup hserializable key hmissing =>
      apply hsame rfl
      rw [MvccEngine.get, hmissing]
      simp only [if_pos hserializable]
      exact (SSIManager.sameCommits_recordRead hashKey s.engine.ssiManager txn.id key).writeIndex
  | records callId choice txnId key =>
      exact hsame rfl
        (SSIManager.sameCommits_recordWrite hashKey s.engine.ssiManager txnId key).writeIndex
  | @validates txn commitTs order faults hcommitting hserializable =>
      cases haccepts : s.engine.ssiManager.accepts txn.id txn.startTs commitTs [] with
      | false =>
          apply hsame (validationBy_of_refuses hcommitting haccepts order faults)
          -- a refused validation keeps the index, with or without an entry
          obtain heq | ⟨rw, outbound, -, heq⟩ := SSIManager.of_not_accepts haccepts
          · simp only [heq]
          · simp only [heq]
      | true =>
          obtain ⟨rw, hrw, -, hwriters⟩ := SSIManager.of_accepts haccepts
          have hvalidation :=
            validationBy_of_accepts hcommitting hserializable haccepts hrw order faults
          -- the start in the book is that of the transaction, if it is there
          have hstart : (s.engine.ssiManager.activeStartTs.lookup txn.id).getD txn.startTs =
              txn.startTs := by
            cases hregistered : s.engine.ssiManager.activeStartTs.lookup txn.id with
            | none => rfl
            | some startTs =>
                exact (hnoted txn.id txn (lookup_of_committing hcommitting)).startTs startTs
                  hregistered
          simp only
          rw [hwriters hash, hstart, hvalidation, List.mem_append, List.mem_replicate,
            ← Nat.pos_iff_ne_zero, List.count_pos_iff]
          simp
  | aborts => exact hsame rfl rfl

/-- What a step makes of one set: where the set of a transaction comes from that has it after the
step. -/
inductive SetChange (hashKey : Bytes → UInt64) (s : TxnSystem) (engine : MvccEngine) (txnId : ℕ) :
    ReadWriteSet → Prop
  | same {rw : ReadWriteSet} (hset : s.engine.ssiManager.activeTxns.lookup txnId = some rw) :
      SetChange hashKey s engine txnId rw
  | begins : SetChange hashKey s engine txnId .new
  | reads {rw : ReadWriteSet} {txn' : Transaction} {key : Bytes}
      (hset : s.engine.ssiManager.activeTxns.lookup txnId = some rw)
      (hlookup : engine.txns.lookup txnId = some txn') (hread : key ∈ txn'.readSet) :
      SetChange hashKey s engine txnId (rw.recordRead (hashKey key))
  | writes {rw : ReadWriteSet} (hset : s.engine.ssiManager.activeTxns.lookup txnId = some rw)
      (key : Bytes) : SetChange hashKey s engine txnId (rw.recordWrite (hashKey key))
  | refused {rw : ReadWriteSet} {txn : Transaction} {commitTs : ℕ}
      (hset : s.engine.ssiManager.activeTxns.lookup txnId = some rw)
      (hcommitting : s.committing txnId = some (txn, .drawn commitTs))
      (htxns : engine.txns = s.engine.txns) (outbound : List RWConflict) :
      SetChange hashKey s engine txnId
        { rw with
          inboundConflicts := rw.inboundConflicts ++
            s.engine.ssiManager.findInboundConflicts rw txnId txn.startTs commitTs
          outboundConflicts := outbound }

theorem set_step (h : s.Locked) {txnId : ℕ} {rw' : ReadWriteSet}
    (hset' : (s.step hashKey action).engine.ssiManager.activeTxns.lookup txnId = some rw') :
    SetChange hashKey s (s.step hashKey action).engine txnId rw' := by
  have heffect := sets_step hashKey h action
  generalize (s.step hashKey action).engine = engine at heffect hset' ⊢
  cases heffect with
  | same _ hsets =>
      rw [hsets] at hset'
      exact .same hset'
  | begins =>
      rcases lookup_insert_cases hset' with ⟨-, rfl⟩ | hold
      · exact .begins
      · exact .same hold
  | @reads txn hlookup hserializable key hmissing =>
      have hrecord : txn.recordRead key = { txn with readSet := txn.readSet.insert key } := by
        unfold Transaction.recordRead
        rw [hserializable]
        rfl
      rw [MvccEngine.get, hmissing, hrecord] at hset' ⊢
      simp only [if_pos hserializable] at hset' ⊢
      have hset' : (s.engine.ssiManager.recordRead hashKey txn.id key).activeTxns.lookup txnId =
        some rw' := hset'
      rw [SSIManager.activeTxns_recordRead] at hset'
      by_cases heq : txnId = txn.id
      · -- the transaction has noted the key as well
        subst heq
        rw [lookup_amend_self, Option.map_eq_some_iff] at hset'
        obtain ⟨rw, hset, rfl⟩ := hset'
        exact .reads hset (AList.lookup_insert _) List.mem_insert_self
      · rw [lookup_amend_ne _ _ heq] at hset'
        exact .same hset'
  | records callId choice other key =>
      have hset' : (s.engine.ssiManager.recordWrite hashKey other key).activeTxns.lookup txnId =
        some rw' := hset'
      rw [SSIManager.activeTxns_recordWrite] at hset'
      by_cases heq : txnId = other
      · rw [← heq, lookup_amend_self, Option.map_eq_some_iff] at hset'
        obtain ⟨rw, hset, rfl⟩ := hset'
        exact .writes hset key
      · rw [lookup_amend_ne _ _ heq] at hset'
        exact .same hset'
  | @validates txn commitTs order faults hcommitting hserializable =>
      cases haccepts : s.engine.ssiManager.accepts txn.id txn.startTs commitTs [] with
      | true =>
          obtain ⟨rw, -, hgone, -⟩ := SSIManager.of_accepts haccepts
          simp only [hgone] at hset'
          -- an accepted validation takes out a set and changes none
          exact .same (lookup_of_erase hset')
      | false =>
          obtain heq | ⟨rw, outbound, hset, heq⟩ := SSIManager.of_not_accepts haccepts
          · simp only [heq] at hset'
            exact .same hset'
          · simp only [heq] at hset'
            rcases lookup_insert_cases hset' with ⟨rfl, rfl⟩ | hold
            · refine .refused hset hcommitting ?_ outbound
              rfl
            · exact .same hold
  | aborts => exact .same (lookup_of_erase hset')

/-- A transaction that is accepted has begun, and its set goes. -/
theorem of_validationBy (hashKey : Bytes → UInt64) (h : s.Locked) {v : Validation}
    (hv : s.validationBy action = some v) :
    s.Known v.txnId ∧ v.nextTxnId = s.engine.nextTxnId ∧
      (s.step hashKey action).engine.ssiManager.activeTxns.lookup v.txnId = none := by
  have heffect := sets_step hashKey h action
  generalize (s.step hashKey action).engine = engine at heffect ⊢
  cases heffect with
  | same hnone =>
      rw [hnone] at hv
      contradiction
  | @validates txn commitTs order faults hcommitting hserializable =>
      cases haccepts : s.engine.ssiManager.accepts txn.id txn.startTs commitTs [] with
      | false =>
          rw [validationBy_of_refuses hcommitting haccepts order faults] at hv
          contradiction
      | true =>
          obtain ⟨rw, hrw, hgone, -⟩ := SSIManager.of_accepts haccepts
          rw [validationBy_of_accepts hcommitting hserializable haccepts hrw order faults] at hv
          obtain rfl := Option.some.inj hv
          refine ⟨⟨txn, lookup_of_committing hcommitting⟩, rfl, ?_⟩
          simp only [hgone]
          exact AList.lookup_erase _ _
  | _ => contradiction

/-- A set is kept until its transaction is accepted or has ended. -/
theorem set_kept (hashKey : Bytes → UInt64) (h : s.Locked) {txnId : ℕ} {rw : ReadWriteSet}
    (hset : s.engine.ssiManager.activeTxns.lookup txnId = some rw) (action : TxnStep) :
    (∃ rw', (s.step hashKey action).engine.ssiManager.activeTxns.lookup txnId = some rw') ∨
      (∃ v, s.validationBy action = some v ∧ v.txnId = txnId) ∨ s.Ended txnId := by
  -- no call but an end takes a set out
  have hinsert : ∀ (other : ℕ) (rw' : ReadWriteSet),
      ∃ rw'', (s.engine.ssiManager.activeTxns.insert other rw').lookup txnId = some rw'' := by
    intro other rw'
    rw [← Option.isSome_iff_exists, isSome_lookup_insert, hset]
    exact Or.inr rfl
  have hamend : ∀ (other : ℕ) (f : ReadWriteSet → ReadWriteSet),
      ∃ rw'', (s.engine.ssiManager.activeTxns.amend other f).lookup txnId = some rw'' := by
    intro other f
    by_cases heq : txnId = other
    · rw [← heq, lookup_amend_self, hset]
      exact ⟨f rw, rfl⟩
    · rw [lookup_amend_ne _ _ heq]
      exact ⟨rw, hset⟩
  have heffect := sets_step hashKey h action
  generalize (s.step hashKey action).engine = engine at heffect ⊢
  cases heffect with
  | same _ hsets =>
      rw [hsets]
      exact Or.inl ⟨rw, hset⟩
  | @begins other => exact Or.inl (hinsert other ReadWriteSet.new)
  | @reads txn hlookup hserializable key hmissing =>
      left
      rw [MvccEngine.get, hmissing]
      simp only [if_pos hserializable]
      show ∃ rw', (s.engine.ssiManager.recordRead hashKey txn.id key).activeTxns.lookup txnId =
        some rw'
      rw [SSIManager.activeTxns_recordRead]
      exact hamend txn.id _
  | records callId choice other key =>
      left
      show ∃ rw', (s.engine.ssiManager.recordWrite hashKey other key).activeTxns.lookup txnId =
        some rw'
      rw [SSIManager.activeTxns_recordWrite]
      exact hamend other _
  | @validates txn commitTs order faults hcommitting hserializable =>
      cases haccepts : s.engine.ssiManager.accepts txn.id txn.startTs commitTs [] with
      | false =>
          left
          obtain heq | ⟨rw', outbound, -, heq⟩ := SSIManager.of_not_accepts haccepts
          · simp only [heq]
            exact ⟨rw, hset⟩
          · simp only [heq]
            exact hinsert txn.id _
      | true =>
          obtain ⟨rw', hrw', hgone, -⟩ := SSIManager.of_accepts haccepts
          by_cases heq : txnId = txn.id
          · refine Or.inr (Or.inl ⟨_, validationBy_of_accepts hcommitting hserializable haccepts
              hrw' order faults, heq.symm⟩)
          · simp only [hgone]
            exact Or.inl ⟨rw, (AList.lookup_erase_ne heq).trans hset⟩
  | @aborts _ _ other hended =>
      by_cases heq : txnId = other
      · rw [heq]
        exact Or.inr (Or.inr hended)
      · exact Or.inl ⟨rw, (AList.lookup_erase_ne heq).trans hset⟩

/-- A transaction that has begun does not get another set. -/
theorem set_absent (h : s.Locked) {txnId : ℕ} (hknown : s.Known txnId)
    (hnone : s.engine.ssiManager.activeTxns.lookup txnId = none) :
    (s.step hashKey action).engine.ssiManager.activeTxns.lookup txnId = none := by
  rcases @serves_step hashKey s h action with
    ⟨other, hserves⟩ | ⟨isolation, other, startTs, hunknown, heq⟩
  · rw [hserves.ssi.activeTxns txnId (Or.inr hnone), hnone]
  · have hne : txnId ≠ other := by
      rintro rfl
      obtain ⟨txn, hlookup⟩ := hknown
      rw [hunknown] at hlookup
      contradiction
    rw [heq]
    cases isolation with
    | serializable => exact (AList.lookup_insert_ne hne).trans hnone
    | _ => exact hnone

/-- A serializable transaction gets a set when it begins. -/
theorem set_begun (h : s.Locked) {txnId : ℕ} {txn : Transaction}
    (hnone : s.engine.txns.lookup txnId = none)
    (hlookup : (s.step hashKey action).engine.txns.lookup txnId = some txn)
    (hserializable : txn.isolation = .serializable) :
    (s.step hashKey action).engine.ssiManager.activeTxns.lookup txnId = some .new := by
  obtain ⟨isolation, startTs, lock, choice, rfl, hstarting, rfl⟩ :=
    begun_step hashKey h hnone hlookup
  rw [step, hstarting] at hlookup ⊢
  obtain rfl : isolation = .serializable := hserializable
  cases hresult : lock.result with
  | none =>
      simp only [hresult] at hlookup
      rw [hnone] at hlookup
      contradiction
  | some result =>
      simp only [hresult]
      exact AList.lookup_insert _

end
end TxnSystem
end Crabstash

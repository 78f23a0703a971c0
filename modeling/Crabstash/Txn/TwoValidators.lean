import Crabstash.Txn.Changes

/-!
# Two validators

A serializable transaction is validated twice: by the `SSIManager` on hashes, and then, at another
step of its commit, by the `TransactionManager` on keys.  Each has a history of its own, and a
transaction comes into the first one when it is accepted there and into the second one when its
commit ends.

Whoever is in the second history is in the first (`RecordsIndexed`), with all its keys and the same
timestamps, so that the second validator finds nothing that was there when the first one accepted.
What it can find is a transaction that has finished in between.  That transaction was accepted
without a look at the other, since it had only written, and has overtaken it: it is in the second
history when the other comes there, and the other is refused although it is published as committed.
So the condition is that nobody finishes over a transaction that waits between the two
(`UndisturbedStep`).
-/

namespace Crabstash

open Crabstash.Action

/-- The transaction of the record was active while the other one was, and has written what the
other one has read. -/
def CommitRecord.Overtakes (record : CommitRecord) (txn : Transaction) (commitTs : ℕ) : Prop :=
  txn.startTs < record.commitTs ∧ record.startTs < commitTs ∧
    ∃ key ∈ txn.readSet, key ∈ record.writeKeys

instance (record : CommitRecord) (txn : Transaction) (commitTs : ℕ) :
    Decidable (record.Overtakes txn commitTs) :=
  inferInstanceAs (Decidable (_ ∧ _ ∧ ∃ key ∈ txn.readSet, _))

/-- The commit timestamp of a commit between the two validators. -/
def CommitProgress.accepted : CommitProgress → Option ℕ
  | validated commitTs => some commitTs
  | _ => none

theorem CommitProgress.eq_of_accepted {progress : CommitProgress} {commitTs : ℕ}
    (h : progress.accepted = some commitTs) : progress = .validated commitTs := by
  cases progress with
  | validated commitTs' => exact congrArg _ (Option.some.inj h)
  | _ => contradiction

namespace MvccEngine

variable {hashKey : Bytes → UInt64} {s : MvccEngine} {txn : Transaction}

/-- The `TransactionManager` refuses only what has a conflict among the committed. -/
theorem prepareCommit_of_not_recordConflict {commitTs : ℕ}
    (hclear : ¬s.RecordConflict txn commitTs) :
    s.txnManager.prepareCommit txn commitTs = .ok { txn with commitTs := some commitTs } := by
  have hvalid : s.txnManager.validateSerializable txn commitTs = .ok () := by
    unfold TransactionManager.validateSerializable
    rw [if_neg]
    intro hany
    obtain ⟨record, hrecord, hoverlap⟩ := List.any_eq_true.mp hany
    simp only [Bool.and_eq_true, decide_eq_true_eq, List.any_eq_true] at hoverlap
    obtain ⟨⟨hcommit, hstart⟩, key, hkey, hwritten⟩ := hoverlap
    exact hclear ⟨record, hrecord, hcommit, hstart, key, hkey, List.contains_iff_mem.mp hwritten⟩
  unfold TransactionManager.prepareCommit
  rw [hvalid]
  split <;> rfl

/-- What a committed transaction has written is in the index, with its timestamps. -/
def RecordIndexed (hashKey : Bytes → UInt64) (s : MvccEngine) (record : CommitRecord) : Prop :=
  ∀ key ∈ record.writeKeys,
    ⟨record.commitTs, record.startTs⟩ ∈ s.ssiManager.writersOf (hashKey key)

theorem Grows.recordIndexed {s' : MvccEngine} (h : Grows s s') {record : CommitRecord}
    (hindexed : s.RecordIndexed hashKey record) : s'.RecordIndexed hashKey record :=
  fun key hkey => h.writers _ (hindexed key hkey)

/-- A conflict with such a transaction is a conflict in the index. -/
theorem RecordIndexed.indexConflict {record : CommitRecord}
    (hindexed : s.RecordIndexed hashKey record) {commitTs : ℕ}
    (hcommit : txn.startTs < record.commitTs) (hstart : record.startTs < commitTs) {key : Bytes}
    (hread : key ∈ txn.readSet) (hwritten : key ∈ record.writeKeys) :
    s.IndexConflict hashKey txn commitTs :=
  ⟨key, hread, _, hindexed key hwritten, hcommit, hstart⟩

/-- A commit comes between the two validators when the first one has accepted. -/
theorem of_commitStep_validated {faults : Faults IoCall} {order : IterOrder}
    {progress : CommitProgress} {commitTs : ℕ}
    (hresult : (exec (commitStep faults order txn progress) s).1 =
      .ok (some (.validated commitTs))) :
    progress = .drawn commitTs ∧ (exec (validateSsi txn commitTs) s).1 = .ok () ∧
      (exec (commitStep faults order txn progress) s).2 = (exec (validateSsi txn commitTs) s).2 := by
  have hpart := commitStep_part faults order s txn progress
  generalize exec (commitStep faults order txn progress) s = result at hpart hresult ⊢
  cases hpart with
  | readOnly => exact absurd hresult (map_none_ne _ _)
  | validates commitTs' =>
      cases hvalidated : (exec (validateSsi txn commitTs') s).1 with
      | error e =>
          -- a refusal ends the commit
          rw [hvalidated] at hresult
          contradiction
      | ok _ =>
          rw [hvalidated] at hresult
          cases hresult
          exact ⟨rfl, hvalidated, rfl⟩
  | skips commitTs' _ hother =>
      cases hresult
      rw [exec_validateSsi_of_ne s commitTs hother]
      exact ⟨rfl, rfl, rfl⟩
  | finishes => exact absurd hresult (map_none_ne _ _)
  | writes ts op =>
      cases hwritten : (exec (Lsm.writeAt faults ts op) s.storage).1 with
      | error e =>
          rw [hwritten] at hresult
          contradiction
      | ok _ =>
          rw [hwritten] at hresult
          cases hresult
  | _ => cases hresult

/-! ## What a commit adds to the history -/

/-- What the `TransactionManager` enters when it commits the transaction. -/
def recordOf (txn : Transaction) : Option CommitRecord :=
  if txn.isActive then
    txn.commitTs.map fun commitTs => ⟨commitTs, txn.startTs, txn.writeSet.writeKeys⟩
  else none

theorem committedTxns_managerCommit (s : MvccEngine) (txn : Transaction) :
    (exec (managerCommit txn) s).2.txnManager.committedTxns =
      s.txnManager.committedTxns ++ (recordOf txn).toList := by
  rw [exec_managerCommit, TransactionManager.commit, recordOf]
  cases hactive : txn.isActive with
  | false => exact (List.append_nil _).symm
  | true =>
      cases hcommitTs : txn.commitTs with
      | none => exact (List.append_nil _).symm
      | some commitTs => rfl

theorem committedTxns_commitReadOnly (s : MvccEngine) {txn : Transaction}
    (hnone : txn.commitTs = none) :
    (exec (commitReadOnly txn) s).2.txnManager.committedTxns = s.txnManager.committedTxns := by
  have hmanager := committedTxns_managerCommit s txn
  rw [recordOf, hnone, Option.map_none, ite_self, Option.toList_none, List.append_nil] at hmanager
  obtain hsame | ⟨-, htold⟩ := commitReadOnly_cases s txn
  · rw [hsame, hmanager]
  · rw [htold, ← hmanager]

end MvccEngine

namespace TxnSystem

variable {hashKey : Bytes → UInt64} {s : TxnSystem}

/-! ## The system -/

/-- What a step enters into the history, and the isolation level of its transaction. -/
def recordBy (s : TxnSystem) : TxnStep → Option (IsolationLevel × CommitRecord)
  | .continueCommit txnId _ _ =>
      match s.committing txnId with
      | some (txn, .applying []) =>
          (MvccEngine.recordOf txn).map fun record => (txn.isolation, record)
      | _ => none
  | _ => none

theorem of_recordBy {action : TxnStep} {isolation : IsolationLevel} {record : CommitRecord}
    (hrecord : s.recordBy action = some (isolation, record)) :
    ∃ txnId txn commitTs, s.committing txnId = some (txn, .applying []) ∧
      txn.isolation = isolation ∧ txn.commitTs = some commitTs ∧
        record = ⟨commitTs, txn.startTs, txn.writeSet.writeKeys⟩ := by
  cases action with
  | continueCommit txnId order faults =>
      rw [recordBy] at hrecord
      split at hrecord
      · next txn hcommitting =>
          obtain ⟨_, hrecordOf, heq⟩ := Option.map_eq_some_iff.mp hrecord
          obtain ⟨hisolation, rfl⟩ := Prod.mk.inj heq
          rw [MvccEngine.recordOf] at hrecordOf
          split at hrecordOf
          · obtain ⟨commitTs, hcommitTs, hnew⟩ := Option.map_eq_some_iff.mp hrecordOf
            exact ⟨txnId, txn, commitTs, hcommitting, hisolation, hcommitTs, hnew.symm⟩
          · contradiction
      · contradiction
  | _ => contradiction

/-- A transaction comes into the history at the end of its commit. -/
theorem committedTxns_step (hashKey : Bytes → UInt64) (hunprepared : s.Unprepared)
    (action : TxnStep) :
    (s.step hashKey action).engine.txnManager.committedTxns =
      s.engine.txnManager.committedTxns ++ ((s.recordBy action).map Prod.snd).toList := by
  have hnothing : ∀ {engine : MvccEngine}, s.recordBy action = none →
      engine.txnManager.committedTxns = s.engine.txnManager.committedTxns →
        engine.txnManager.committedTxns =
          s.engine.txnManager.committedTxns ++ ((s.recordBy action).map Prod.snd).toList := by
    intro engine hnone hsame
    rw [hnone, hsame, Option.map_none, Option.toList_none, List.append_nil]
  by_cases hown : ∃ txnId order faults, action = .continueCommit txnId order faults
  · obtain ⟨txnId, order, faults, rfl⟩ := hown
    cases hcommitting : s.committing txnId with
    | none =>
        apply hnothing
        · rw [recordBy, hcommitting]
        · rw [step, hcommitting]
    | some c =>
        obtain ⟨txn, progress⟩ := c
        rw [step, hcommitting]
        simp only
        rw [engine_proceed]
        have hpart := commitStep_part faults order s.engine txn progress
        generalize exec (commitStep faults order txn progress) s.engine = result at hpart ⊢
        cases hpart with
        | readOnly commitTs hreadOnly =>
            -- a read-only transaction has no commit timestamp, so none is recorded
            apply hnothing
            · rw [recordBy, hcommitting]
            · exact MvccEngine.committedTxns_commitReadOnly s.engine
                (hunprepared.commitTs txnId txn (lookup_of_committing hcommitting) hreadOnly)
        | validates commitTs hserializable =>
            apply hnothing
            · rw [recordBy, hcommitting]
            · rw [MvccEngine.exec_validateSsi s.engine commitTs hserializable]
        | finishes =>
            rw [recordBy, hcommitting, MvccEngine.committedTxns_managerCommit, Option.map_map]
            simp only [Function.comp_def, Option.map_id']
        | _ =>
            apply hnothing
            · rw [recordBy, hcommitting]
            · rfl
  · have hnone : s.recordBy action = none := by
      cases action with
      | continueCommit txnId order faults => exact absurd ⟨txnId, order, faults, rfl⟩ hown
      | _ => rfl
    apply hnothing hnone
    have heffect := s.step_effect hashKey action
    generalize s.step hashKey action = s' at heffect ⊢
    cases heffect with
    | gets =>
        unfold MvccEngine.get
        split <;> rfl
    | @proceeds txnId txn progress order faults => exact absurd ⟨txnId, order, faults, rfl⟩ hown
    | advances _ hadvance =>
        cases hadvance with
        | @records txnId isolation op =>
            show (s.engine.recordWrite hashKey txnId isolation op.key).txnManager.committedTxns = _
            unfold MvccEngine.recordWrite
            split <;> rfl
        | @aborts txnId isolation =>
            show (s.engine.ssiAbort txnId isolation).txnManager.committedTxns = _
            unfold MvccEngine.ssiAbort
            split <;> rfl
        | _ => rfl
    | _ => rfl

/-- What is known of the sets, the calls and the commits under way. -/
structure Searched (hashKey : Bytes → UInt64) (s : TxnSystem) : Prop where
  locked : s.Locked
  registered : s.engine.Registered
  unprepared : s.Unprepared
  noted : s.engine.Noted hashKey
  calls : s.CallsNoted hashKey
  commits : ∀ txnId progress, s.commits.lookup txnId = some progress →
    ∃ txn, s.engine.txns.lookup txnId = some txn ∧ s.engine.CommitNoted hashKey txn progress

theorem searched_init (hashKey : Bytes → UInt64) (storage : Lsm) (config : LockConfig) :
    (init storage config).Searched hashKey where
  locked := locked_init storage config
  registered := MvccEngine.registered_new storage
  unprepared := unprepared_init storage config
  noted := MvccEngine.noted_new storage
  calls := by
    intro callId call hcall
    contradiction
  commits := by
    intro txnId progress hprogress
    contradiction

theorem Searched.step (hsearched : s.Searched hashKey) (action : TxnStep) :
    (s.step hashKey action).Searched hashKey where
  locked := hsearched.locked.step hashKey action
  registered := registered_step hsearched.locked hsearched.registered action
  unprepared := hsearched.unprepared.step hashKey hsearched.locked action
  noted := (moves_step hashKey hsearched.locked action).noted hsearched.noted
    hsearched.registered hsearched.calls
  calls := callsNoted_step hsearched.locked hsearched.registered hsearched.calls action
  commits := by
    intro txnId progress' hcommit'
    have hgrows := (moves_step hashKey hsearched.locked action).grows
    cases hcommit : s.commits.lookup txnId with
    | none =>
        obtain ⟨_, txn, rfl, hunlocked, rfl⟩ := commit_of_none hcommit hcommit'
        obtain ⟨txn', hlookup', -⟩ := hgrows.txns txnId txn (lookup_of_unlocked hunlocked)
        exact ⟨txn', hlookup', trivial⟩
    | some progress =>
        obtain ⟨txn, hlookup, hnoted⟩ := hsearched.commits txnId progress hcommit
        by_cases hown : ∃ order faults, action = .continueCommit txnId order faults
        · obtain ⟨order, faults, rfl⟩ := hown
          obtain ⟨hresult, hengine⟩ := continued_of_some hlookup hcommit hcommit'
          obtain rfl := hsearched.locked.ids txnId txn hlookup
          obtain ⟨txn', hlookup', hnoted', -⟩ :=
            MvccEngine.noted_commitStep hsearched.noted hlookup hnoted hresult
          rw [← hengine] at hlookup' hnoted'
          exact ⟨txn', hlookup', hnoted'⟩
        · push Not at hown
          obtain ⟨hlookup', hsame⟩ := frozen_step hashKey hsearched.locked hlookup hcommit hown
          rw [hsame] at hcommit'
          obtain rfl := Option.some.inj hcommit'
          exact ⟨txn, hlookup', hgrows.commitNoted hnoted⟩

/-- Of a serializable transaction that ends its commit everything is in the index. -/
theorem Searched.recordIndexed (hsearched : s.Searched hashKey) {action : TxnStep}
    {record : CommitRecord} (hrecord : s.recordBy action = some (.serializable, record)) :
    s.engine.RecordIndexed hashKey record := by
  obtain ⟨txnId, txn, commitTs, hcommitting, hserializable, hcommitTs, rfl⟩ := of_recordBy hrecord
  obtain ⟨txn', hlookup, ⟨commitTs', hcommitTs', hindexed⟩, -⟩ :=
    hsearched.commits txnId (.applying []) (commits_of_committing hcommitting)
  obtain rfl := Option.some.inj ((lookup_of_committing hcommitting).symm.trans hlookup)
  obtain rfl := Option.some.inj (hcommitTs'.symm.trans hcommitTs)
  exact hindexed hserializable

/-! ## Only serializable transactions -/

/-- Only serializable transactions are begun. -/
def SerializableStep : TxnStep → Prop
  | .begin isolation _ _ => isolation = .serializable
  | _ => True

instance (action : TxnStep) : Decidable (SerializableStep action) :=
  match action with
  | .begin _ _ _ => inferInstanceAs (Decidable (_ = _))
  | .continueBegin _ _ | .get _ _ | .write _ _ | .commit _ _ | .continueCommit _ _ _ | .abort _
  | .advance _ _ | .onStorage _ => inferInstanceAs (Decidable True)

/-- A transaction that finishes has not written what another one, accepted and not prepared, has
read in the meantime. -/
def UndisturbedStep (s : TxnSystem) (action : TxnStep) : Prop :=
  ∀ r ∈ s.recordBy action, ∀ e ∈ s.commits.entries, ∀ commitTs ∈ e.2.accepted,
    ∀ txn ∈ s.engine.txns.lookup e.1, ¬r.2.Overtakes txn commitTs

instance (s : TxnSystem) (action : TxnStep) : Decidable (s.UndisturbedStep action) :=
  inferInstanceAs (Decidable (∀ r ∈ s.recordBy action, ∀ e ∈ s.commits.entries,
    ∀ commitTs ∈ e.2.accepted, ∀ txn ∈ s.engine.txns.lookup e.1, ¬_))

/-- Whoever the `SSIManager` has accepted is accepted by the `TransactionManager`. -/
def NeverOverruled (s : TxnSystem) : Prop :=
  ∀ txnId txn commitTs, s.committing txnId = some (txn, .validated commitTs) →
    ∃ txn', s.engine.txnManager.prepareCommit txn commitTs = .ok txn'

/-- What a run keeps: what the `TransactionManager` has recorded is in the write index too, and
speaks against nobody who has been accepted. -/
structure Agreed (hashKey : Bytes → UInt64) (s : TxnSystem) : Prop where
  searched : s.Searched hashKey
  starting : ∀ txnId isolation startTs lock,
    s.starting.lookup txnId = some (isolation, startTs, lock) → isolation = .serializable
  txns : ∀ txnId txn, s.engine.txns.lookup txnId = some txn → txn.isolation = .serializable
  records : ∀ record ∈ s.engine.txnManager.committedTxns, s.engine.RecordIndexed hashKey record
  accepted : ∀ txnId txn commitTs, s.committing txnId = some (txn, .validated commitTs) →
    ¬s.engine.RecordConflict txn commitTs

theorem agreed_init (hashKey : Bytes → UInt64) (storage : Lsm) (config : LockConfig) :
    (init storage config).Agreed hashKey where
  searched := searched_init hashKey storage config
  starting := by
    intro txnId isolation startTs lock hstarting
    contradiction
  txns := by
    intro txnId txn hlookup
    contradiction
  records := by
    intro record hrecord
    contradiction
  accepted := by
    intro txnId txn commitTs hcommitting
    contradiction

theorem mem_records_step (hunprepared : s.Unprepared) {action : TxnStep} {record : CommitRecord}
    (hrecord : record ∈ (s.step hashKey action).engine.txnManager.committedTxns) :
    record ∈ s.engine.txnManager.committedTxns ∨
      ∃ isolation, s.recordBy action = some (isolation, record) := by
  rw [committedTxns_step hashKey hunprepared action, List.mem_append, Option.mem_toList] at hrecord
  rcases hrecord with hold | hnew
  · exact Or.inl hold
  · obtain ⟨⟨isolation, record⟩, hrecord, rfl⟩ := Option.map_eq_some_iff.mp hnew
    exact Or.inr ⟨isolation, hrecord⟩

theorem Agreed.records_step (hagreed : s.Agreed hashKey) (action : TxnStep) {record : CommitRecord}
    (hrecord : record ∈ (s.step hashKey action).engine.txnManager.committedTxns) :
    (s.step hashKey action).engine.RecordIndexed hashKey record := by
  have hgrows := (moves_step hashKey hagreed.searched.locked action).grows
  apply hgrows.recordIndexed
  rcases mem_records_step hagreed.searched.unprepared hrecord with hold | ⟨isolation, hnew⟩
  · exact hagreed.records record hold
  · obtain ⟨txnId, txn, _, hcommitting, hisolation, -⟩ := of_recordBy hnew
    have hserializable := hagreed.txns txnId txn (lookup_of_committing hcommitting)
    rw [← hisolation, hserializable] at hnew
    exact hagreed.searched.recordIndexed hnew

theorem Agreed.accepted_step (hagreed : s.Agreed hashKey) {action : TxnStep}
    (hundisturbed : s.UndisturbedStep action) {txnId commitTs : ℕ} {txn' : Transaction}
    (hcommitting' : (s.step hashKey action).committing txnId = some (txn', .validated commitTs)) :
    ¬(s.step hashKey action).engine.RecordConflict txn' commitTs := by
  have hlookup' := lookup_of_committing hcommitting'
  have hcommit' := commits_of_committing hcommitting'
  cases hcommit : s.commits.lookup txnId with
  | none =>
      obtain ⟨_, _, _, _, heq⟩ := commit_of_none hcommit hcommit'
      contradiction
  | some progress =>
      obtain ⟨txn, hlookup, -⟩ := hagreed.searched.commits txnId progress hcommit
      by_cases hown : ∃ order faults, action = .continueCommit txnId order faults
      · -- the first validator has just accepted, and has seen all that the second one can find
        obtain ⟨order, faults, rfl⟩ := hown
        obtain ⟨hresult, hengine⟩ := continued_of_some hlookup hcommit hcommit'
        obtain ⟨rfl, hok, hstate⟩ := MvccEngine.of_commitStep_validated hresult
        have hserializable := hagreed.txns txnId txn hlookup
        obtain rfl := hagreed.searched.locked.ids txnId txn hlookup
        obtain ⟨hclear, -⟩ :=
          MvccEngine.of_validateSsi_ok hagreed.searched.noted hlookup hserializable hok
        rw [hengine, hstate, MvccEngine.exec_validateSsi s.engine commitTs hserializable] at hlookup' ⊢
        obtain rfl := Option.some.inj (hlookup.symm.trans hlookup')
        rintro ⟨record, hrecord, hcommitTs, hstartTs, key, hread, hwritten⟩
        exact hclear ((hagreed.records record hrecord).indexConflict hcommitTs hstartTs hread hwritten)
      · push Not at hown
        -- a commit between the validators is where it was, and only the list has grown
        obtain ⟨hsame, hsame'⟩ := frozen_step hashKey hagreed.searched.locked hlookup hcommit hown
        obtain rfl := Option.some.inj (hsame.symm.trans hlookup')
        obtain rfl := Option.some.inj (hsame'.symm.trans hcommit')
        rintro ⟨record, hrecord, hovertakes⟩
        rcases mem_records_step hagreed.searched.unprepared hrecord with hold | ⟨isolation, hnew⟩
        · exact hagreed.accepted txnId txn commitTs (committing_eq hcommit hlookup)
            ⟨record, hold, hovertakes⟩
        · exact hundisturbed (isolation, record) hnew ⟨txnId, .validated commitTs⟩
            (AList.mem_lookup_iff.mp hcommit) commitTs rfl txn hlookup hovertakes

theorem Agreed.step (hagreed : s.Agreed hashKey) {action : TxnStep}
    (hserializable : SerializableStep action) (hundisturbed : s.UndisturbedStep action) :
    (s.step hashKey action).Agreed hashKey where
  searched := hagreed.searched.step action
  starting := by
    intro txnId isolation startTs lock hstarting'
    rcases starting_step hstarting' with ⟨lock', hstarting⟩ | ⟨_, _, rfl, -, -⟩
    · exact hagreed.starting txnId isolation startTs lock' hstarting
    · exact hserializable
  txns := by
    intro txnId txn' hlookup'
    cases hlookup : s.engine.txns.lookup txnId with
    | none =>
        obtain ⟨isolation, startTs, lock, _, -, hstarting, rfl⟩ :=
          begun_step hashKey hagreed.searched.locked hlookup hlookup'
        exact hagreed.starting txnId isolation startTs lock hstarting
    | some txn =>
        have hgrows := (moves_step hashKey hagreed.searched.locked action).grows
        obtain ⟨txn'', hlookup'', -, hisolation, -⟩ := hgrows.txns txnId txn hlookup
        obtain rfl := Option.some.inj (hlookup''.symm.trans hlookup')
        exact hisolation.trans (hagreed.txns txnId txn hlookup)
  records := fun _ hrecord => hagreed.records_step action hrecord
  accepted := fun _ _ _ hcommitting => hagreed.accepted_step hundisturbed hcommitting

theorem Agreed.neverOverruled (hagreed : s.Agreed hashKey) : s.NeverOverruled := by
  intro txnId txn commitTs hcommitting
  exact ⟨_, MvccEngine.prepareCommit_of_not_recordConflict
    (hagreed.accepted txnId txn commitTs hcommitting)⟩

/-- In every run of serializable transactions in which nobody finishes over a transaction between
the two validators, the second one refuses nobody. -/
theorem neverOverruled_run (hashKey : Bytes → UInt64) (storage : Lsm) (config : LockConfig)
    (steps : List TxnStep) (hserializable : ∀ action ∈ steps, SerializableStep action)
    (hundisturbed : Run.Along (step hashKey) UndisturbedStep (init storage config) steps) :
    (Run.run (step hashKey) (init storage config) steps).NeverOverruled := by
  have hsteps := (Run.along_of_forall hserializable (init storage config)).and hundisturbed
  have hagreed := hsteps.invariant (Agreed hashKey)
    (fun s action hagreed hstep => hagreed.step hstep.1 hstep.2)
    (agreed_init hashKey storage config)
  exact hagreed.neverOverruled

/-- The runs of the examples, with the first byte of a key as its hash. -/
def runOf (steps : List TxnStep) : TxnSystem :=
  Run.run (step fun key => key.headD 0 |>.toUInt64)
    (init (Lsm.openDir 100 Dir.empty) LockConfig.default) steps

/-- The commit of the first transaction, up to where the first validator has accepted. -/
def acceptReader : List TxnStep := [.commit 1 3, .continueCommit 1 .inserted noFaults]

/-- The first transaction reads a key and writes another, and the second one writes a third. -/
def readAndWrite (key : Bytes) : List TxnStep :=
  TxnHandles.beginSerializable 1 ++ TxnHandles.beginSerializable 2 ++ [.get 1 [7]] ++
    CommitHistory.putKey 1 0 [8] ++ CommitHistory.putKey 2 1 key

/-- The commit of the second transaction, to its end. -/
def finishWriter : List TxnStep :=
  .commit 2 4 :: List.replicate 5 (.continueCommit 2 .inserted noFaults)

/-- The second transaction finishes while the first waits between the validators, and has not
written what the first has read. -/
def finishedBetween : List TxnStep := readAndWrite [9] ++ acceptReader ++ finishWriter

theorem neverOverruled_finishedBetween : (runOf finishedBetween).NeverOverruled :=
  neverOverruled_run _ _ _ finishedBetween (by decide) (by decide +kernel)

/-- The second transaction has written what the first has read. -/
def overtakenBetween : List TxnStep := readAndWrite [7] ++ acceptReader ++ finishWriter

/-- The first transaction, as it waits between the validators. -/
def overtakenReader : Transaction :=
  ((runOf overtakenBetween).engine.txns.lookup 1).get (by decide +kernel)

theorem not_neverOverruled_overtakenBetween :
    (∀ action ∈ overtakenBetween, SerializableStep action) ∧
      ¬(runOf overtakenBetween).NeverOverruled := by
  refine ⟨by decide, fun h => ?_⟩
  have hlookup : (runOf overtakenBetween).engine.txns.lookup 1 = some overtakenReader :=
    (Option.some_get _).symm
  have hwaits : ((runOf overtakenBetween).commits.lookup 1).bind CommitProgress.accepted =
      some (3 <<< 18) := by decide +kernel
  obtain ⟨progress, hcommit, haccepted⟩ := Option.bind_eq_some_iff.mp hwaits
  obtain rfl := CommitProgress.eq_of_accepted haccepted
  obtain ⟨txn', hprepared⟩ := h 1 overtakenReader _ (committing_eq hcommit hlookup)
  have hovertaken : ∃ record ∈ (runOf overtakenBetween).engine.txnManager.committedTxns,
      record.Overtakes overtakenReader (3 <<< 18) := by decide +kernel
  exact MvccEngine.not_recordConflict_of_ok (by decide +kernel) hprepared hovertaken

end TxnSystem
end Crabstash

import Crabstash.Txn.DirtyWrites

/-!
# Registrations

A transaction is registered with the `SSIManager` in up to two maps, depending on its
isolation level, and with the `TransactionManager`.  A method on behalf of a transaction
(`Serves`) touches the entries of this transaction only, and puts none where there is none;
they come in when the transaction begins and at no other time.
-/

namespace Crabstash

open Crabstash.Action

namespace SSIManager

/-- A method on behalf of a transaction. -/
structure Serves (txnId : ℕ) (s s' : SSIManager) : Prop where
  activeTxns : OnlyAt txnId s.activeTxns s'.activeTxns
  activeStartTs : OnlyAt txnId s.activeStartTs s'.activeStartTs
  readOnlyTxns : OnlyAt txnId s.readOnlyTxns s'.readOnlyTxns

/-- The transaction is in none of the maps. -/
structure Absent (s : SSIManager) (txnId : ℕ) : Prop where
  activeTxns : s.activeTxns.lookup txnId = none
  activeStartTs : s.activeStartTs.lookup txnId = none
  readOnlyTxns : s.readOnlyTxns.lookup txnId = none

section

variable {s s' : SSIManager} {txnId : ℕ}

theorem Serves.refl (txnId : ℕ) (s : SSIManager) : Serves txnId s s :=
  ⟨OnlyAt.refl _ _, OnlyAt.refl _ _, OnlyAt.refl _ _⟩

theorem Absent.serves {other : ℕ} (h : s.Absent txnId) (hserves : Serves other s s') :
    s'.Absent txnId :=
  ⟨(hserves.activeTxns txnId (Or.inr h.activeTxns)).trans h.activeTxns,
    (hserves.activeStartTs txnId (Or.inr h.activeStartTs)).trans h.activeStartTs,
    (hserves.readOnlyTxns txnId (Or.inr h.readOnlyTxns)).trans h.readOnlyTxns⟩

theorem serves_recordRead (hashKey : Bytes → UInt64) (s : SSIManager) (txnId : ℕ) (key : Bytes) :
    Serves txnId s (s.recordRead hashKey txnId key) := by
  cases hlookup : s.activeTxns.lookup txnId with
  | none =>
      rw [recordRead, hlookup]
      exact Serves.refl txnId s
  | some rw =>
      rw [recordRead_of_active hlookup]
      exact ⟨onlyAt_insert hlookup _, OnlyAt.refl _ _, OnlyAt.refl _ _⟩

theorem serves_recordWrite (hashKey : Bytes → UInt64) (s : SSIManager) (txnId : ℕ) (key : Bytes) :
    Serves txnId s (s.recordWrite hashKey txnId key) := by
  cases hlookup : s.activeTxns.lookup txnId with
  | none =>
      rw [recordWrite, hlookup]
      exact Serves.refl txnId s
  | some rw =>
      rw [recordWrite_of_active hlookup]
      exact ⟨onlyAt_insert hlookup _, OnlyAt.refl _ _, OnlyAt.refl _ _⟩

theorem serves_validateAndCommit (s : SSIManager) (txnId readTs commitTs : ℕ) :
    Serves txnId s (s.validateAndCommit txnId readTs commitTs).2 := by
  unfold validateAndCommit validateAndCommitWithKeys
  cases hlookup : s.activeTxns.lookup txnId with
  | none => exact Serves.refl txnId s
  | some rw =>
      simp only
      split
      · exact ⟨onlyAt_insert hlookup _, OnlyAt.refl _ _, OnlyAt.refl _ _⟩
      · exact ⟨(onlyAt_insert hlookup _).trans (onlyAt_erase txnId _), onlyAt_erase txnId _,
          OnlyAt.refl _ _⟩

/-- A transaction that is accepted is no longer active. -/
theorem of_validateAndCommit_ok {readTs commitTs : ℕ}
    (h : (s.validateAndCommit txnId readTs commitTs).1 = .ok ()) :
    (s.validateAndCommit txnId readTs commitTs).2.activeTxns.lookup txnId = none ∧
      (s.validateAndCommit txnId readTs commitTs).2.activeStartTs.lookup txnId = none := by
  unfold validateAndCommit validateAndCommitWithKeys at h ⊢
  cases hlookup : s.activeTxns.lookup txnId with
  | none =>
      rw [hlookup] at h
      contradiction
  | some rw =>
      rw [hlookup] at h
      simp only at h ⊢
      split
      · next hchecked =>
          rw [hchecked] at h
          contradiction
      · exact ⟨AList.lookup_erase _ _, AList.lookup_erase _ _⟩

theorem serves_abortTxn (s : SSIManager) (txnId : ℕ) : Serves txnId s (s.abortTxn txnId) :=
  ⟨onlyAt_erase txnId _, onlyAt_erase txnId _, onlyAt_erase txnId _⟩

theorem absent_abortTxn (s : SSIManager) (txnId : ℕ) : (s.abortTxn txnId).Absent txnId :=
  ⟨AList.lookup_erase _ _, AList.lookup_erase _ _, AList.lookup_erase _ _⟩

theorem serves_commitReadOnlyTxn (s : SSIManager) (txnId : ℕ) :
    Serves txnId s (s.commitReadOnlyTxn txnId) :=
  ⟨OnlyAt.refl _ _, onlyAt_erase txnId _, onlyAt_erase txnId _⟩

end
end SSIManager

namespace MvccEngine

/-- A method on behalf of a transaction that has begun. -/
structure Serves (txnId : ℕ) (s s' : MvccEngine) : Prop where
  txns : ∀ other, other ≠ txnId → s'.txns.lookup other = s.txns.lookup other
  ssi : SSIManager.Serves txnId s.ssiManager s'.ssiManager
  manager : s'.txnManager.activeTxns = s.txnManager.activeTxns ∨
    s'.txnManager.activeTxns = s.txnManager.activeTxns.erase txnId

section

variable {s s' : MvccEngine} {txn : Transaction}

theorem Serves.refl (txnId : ℕ) (s : MvccEngine) : Serves txnId s s :=
  ⟨fun _ _ => rfl, SSIManager.Serves.refl _ _, Or.inl rfl⟩

theorem serves_of_ssi {txnId : ℕ} {ssiManager : SSIManager}
    (h : SSIManager.Serves txnId s.ssiManager ssiManager) : Serves txnId s { s with ssiManager } :=
  ⟨fun _ _ => rfl, h, Or.inl rfl⟩

theorem serves_setTxn (s : MvccEngine) {txn txn' : Transaction} (hid : txn'.id = txn.id) :
    Serves txn.id s (s.setTxn txn') := by
  refine ⟨fun other hne => ?_, SSIManager.Serves.refl _ _, Or.inl rfl⟩
  rw [setTxn, hid]
  exact AList.lookup_insert_ne hne

theorem serves_get (hashKey : Bytes → UInt64) (s : MvccEngine) (txn : Transaction) (key : Bytes) :
    Serves txn.id s (s.get hashKey txn key).2 := by
  unfold get
  split
  · exact Serves.refl _ s
  · have hid : (txn.recordRead key).id = txn.id := by
      unfold Transaction.recordRead
      split <;> rfl
    have hset := serves_setTxn s hid
    refine ⟨hset.txns, ?_, Or.inl rfl⟩
    show SSIManager.Serves txn.id s.ssiManager (if txn.isolation = .serializable then
      s.ssiManager.recordRead hashKey txn.id key else s.ssiManager)
    split
    · exact SSIManager.serves_recordRead hashKey _ _ key
    · exact SSIManager.Serves.refl _ _

theorem serves_recordWrite (hashKey : Bytes → UInt64) (s : MvccEngine) (txnId : ℕ)
    (isolation : IsolationLevel) (key : Bytes) :
    Serves txnId s (s.recordWrite hashKey txnId isolation key) := by
  unfold recordWrite
  split
  · exact serves_of_ssi (SSIManager.serves_recordWrite hashKey _ _ key)
  · exact Serves.refl _ s

theorem serves_storeWrite (s : MvccEngine) (txn : Transaction) (op : BatchOperation) :
    Serves txn.id s (s.storeWrite txn op) := by
  unfold storeWrite
  apply serves_setTxn
  rfl

theorem serves_managerAbort (s : MvccEngine) (txn : Transaction) :
    Serves txn.id s (s.managerAbort txn) :=
  ⟨fun _ hne => AList.lookup_insert_ne hne, SSIManager.Serves.refl _ _, Or.inr rfl⟩

theorem serves_ssiAbort (s : MvccEngine) (txnId : ℕ) (isolation : IsolationLevel) :
    Serves txnId s (s.ssiAbort txnId isolation) := by
  unfold ssiAbort
  split
  · exact serves_of_ssi (SSIManager.serves_abortTxn _ _)
  · exact Serves.refl _ s

theorem serves_managerCommit (s : MvccEngine) (txn : Transaction) :
    Serves txn.id s (exec (managerCommit txn) s).2 := by
  rw [exec_managerCommit]
  cases hcommit : s.txnManager.commit txn with
  | error e => exact Serves.refl _ s
  | ok result =>
      obtain ⟨txnManager, txn'⟩ := result
      obtain ⟨_, _, rfl⟩ := TransactionManager.commit_ok hcommit
      have hmanager : txnManager.activeTxns = s.txnManager.activeTxns.erase txn.id := by
        unfold TransactionManager.commit at hcommit
        split at hcommit
        · contradiction
        · split at hcommit
          · contradiction
          · obtain ⟨rfl, -⟩ := Prod.mk.inj (Except.ok.inj hcommit)
            rfl
      exact ⟨fun _ hne => AList.lookup_insert_ne hne, SSIManager.Serves.refl _ _, Or.inr hmanager⟩

theorem serves_commitReadOnly (s : MvccEngine) (txn : Transaction) :
    Serves txn.id s (exec (commitReadOnly txn) s).2 := by
  have hcommit := serves_managerCommit s txn
  obtain hsame | ⟨-, htold⟩ := commitReadOnly_cases s txn
  · rw [hsame]
    exact hcommit
  · have hssi := SSIManager.serves_commitReadOnlyTxn
      (exec (managerCommit txn) s).2.ssiManager txn.id
    rw [htold]
    exact ⟨hcommit.txns, ⟨hcommit.ssi.activeTxns.trans hssi.activeTxns,
      hcommit.ssi.activeStartTs.trans hssi.activeStartTs,
      hcommit.ssi.readOnlyTxns.trans hssi.readOnlyTxns⟩, hcommit.manager⟩

theorem serves_commitStep (faults : Faults IoCall) (order : IterOrder) (s : MvccEngine)
    (txn : Transaction) (progress : CommitProgress) :
    Serves txn.id s (exec (commitStep faults order txn progress) s).2 := by
  have hpart := commitStep_part faults order s txn progress
  generalize exec (commitStep faults order txn progress) s = result at hpart ⊢
  cases hpart with
  | readOnly => exact serves_commitReadOnly s txn
  | validates commitTs hserializable =>
      rw [exec_validateSsi s commitTs hserializable]
      exact serves_of_ssi (SSIManager.serves_validateAndCommit _ _ _ _)
  | prepares => exact serves_setTxn s rfl
  | finishes => exact serves_managerCommit s txn
  | _ => exact ⟨fun _ _ => rfl, SSIManager.Serves.refl _ _, Or.inl rfl⟩

/-! ## Who is registered where -/

/-- A transaction is only in the maps of its isolation level. -/
structure Registered (s : MvccEngine) : Prop where
  activeTxns : ∀ txnId rw, s.ssiManager.activeTxns.lookup txnId = some rw →
    ∃ txn, s.txns.lookup txnId = some txn ∧ txn.isolation = .serializable
  activeStartTs : ∀ txnId startTs, s.ssiManager.activeStartTs.lookup txnId = some startTs →
    ∃ txn, s.txns.lookup txnId = some txn ∧ txn.isolation.isSerializable = true
  readOnlyTxns : ∀ txnId flag, s.ssiManager.readOnlyTxns.lookup txnId = some flag →
    ∃ txn, s.txns.lookup txnId = some txn ∧ txn.isolation.isReadOnly = true
  nodup : s.txnManager.activeTxns.Nodup

theorem registered_new (storage : Lsm) : (new storage).Registered where
  activeTxns := by
    intro txnId rw hlookup
    contradiction
  activeStartTs := by
    intro txnId startTs hlookup
    contradiction
  readOnlyTxns := by
    intro txnId flag hlookup
    contradiction
  nodup := List.nodup_nil

/-- An entry that is there after a method on behalf of a transaction was there before. -/
theorem of_onlyAt {κ ν : Type} [DecidableEq κ] {k k' : κ} {m m' : HashMap κ ν} {v : ν}
    (h : OnlyAt k m m') (hlookup : m'.lookup k' = some v) : ∃ v', m.lookup k' = some v' := by
  rw [← Option.ne_none_iff_exists']
  intro hnone
  rw [h k' (Or.inr hnone), hnone] at hlookup
  contradiction

theorem Registered.serves (h : s.Registered) {txnId : ℕ} (hserves : Serves txnId s s')
    {stored : ℕ → Bytes → Prop} (hevolves : Evolves s s' stored) : s'.Registered := by
  have hisolation : ∀ {P : IsolationLevel → Prop} {txnId : ℕ},
      (∃ txn, s.txns.lookup txnId = some txn ∧ P txn.isolation) →
        ∃ txn, s'.txns.lookup txnId = some txn ∧ P txn.isolation := by
    rintro P txnId ⟨txn, hlookup, hP⟩
    obtain ⟨txn', hlookup', -, hsame, -⟩ := hevolves.known txnId txn hlookup
    exact ⟨txn', hlookup', hsame ▸ hP⟩
  refine ⟨?_, ?_, ?_, ?_⟩
  · intro txnId rw hlookup
    obtain ⟨rw', hold⟩ := of_onlyAt hserves.ssi.activeTxns hlookup
    exact hisolation (P := fun isolation => isolation = .serializable)
      (h.activeTxns txnId rw' hold)
  · intro txnId startTs hlookup
    obtain ⟨startTs', hold⟩ := of_onlyAt hserves.ssi.activeStartTs hlookup
    exact hisolation (P := fun isolation => isolation.isSerializable = true)
      (h.activeStartTs txnId startTs' hold)
  · intro txnId flag hlookup
    obtain ⟨flag', hold⟩ := of_onlyAt hserves.ssi.readOnlyTxns hlookup
    exact hisolation (P := fun isolation => isolation.isReadOnly = true)
      (h.readOnlyTxns txnId flag' hold)
  · rcases hserves.manager with heq | heq
    · rw [heq]
      exact h.nodup
    · rw [heq]
      exact h.nodup.erase txnId

theorem Registered.register (h : s.Registered) {txnId : ℕ} (hnone : s.txns.lookup txnId = none)
    (isolation : IsolationLevel) (startTs : ℕ) :
    (s.register isolation txnId startTs).Registered := by
  have hself : (s.register isolation txnId startTs).txns.lookup txnId =
      some (Transaction.new txnId startTs isolation) := AList.lookup_insert _
  have hother : ∀ other, other ≠ txnId →
      (s.register isolation txnId startTs).txns.lookup other = s.txns.lookup other :=
    fun _ hne => AList.lookup_insert_ne hne
  have hne : ∀ {other : ℕ} {txn : Transaction}, s.txns.lookup other = some txn → other ≠ txnId := by
    rintro other txn hlookup rfl
    rw [hnone] at hlookup
    contradiction
  -- what was there before, and what comes in for the new transaction
  have hold : ∀ {P : IsolationLevel → Prop} {other : ℕ},
      (∃ txn, s.txns.lookup other = some txn ∧ P txn.isolation) →
        ∃ txn, (s.register isolation txnId startTs).txns.lookup other = some txn ∧
          P txn.isolation :=
    fun ⟨txn, hlookup, hP⟩ => ⟨txn, (hother _ (hne hlookup)).trans hlookup, hP⟩
  have hnew : ∀ {P : IsolationLevel → Prop}, P isolation →
      ∃ txn, (s.register isolation txnId startTs).txns.lookup txnId = some txn ∧
        P txn.isolation := fun hP => ⟨_, hself, hP⟩
  refine ⟨?_, ?_, ?_, h.nodup.insert⟩
  · intro other rw hlookup
    cases isolation <;> try exact hold (P := (· = .serializable)) (h.activeTxns other rw hlookup)
    by_cases heq : other = txnId
    · rw [heq]
      exact hnew (P := (· = .serializable)) rfl
    · have hlookup : s.ssiManager.activeTxns.lookup other = some rw :=
        (AList.lookup_insert_ne heq).symm.trans hlookup
      exact hold (P := (· = .serializable)) (h.activeTxns other rw hlookup)
  · intro other startTs' hlookup
    by_cases heq : other = txnId
    · rw [heq] at hlookup ⊢
      apply hnew (P := fun isolation => isolation.isSerializable = true)
      cases isolation with
      | snapshot =>
          obtain ⟨txn, hlookup', -⟩ := h.activeStartTs txnId startTs' hlookup
          exact absurd rfl (hne hlookup')
      | _ => rfl
    · have hlookup : s.ssiManager.activeStartTs.lookup other = some startTs' := by
        cases isolation <;> first
          | exact hlookup
          | exact (AList.lookup_insert_ne heq).symm.trans hlookup
      exact hold (P := fun isolation => isolation.isSerializable = true)
        (h.activeStartTs other startTs' hlookup)
  · intro other flag hlookup
    by_cases heq : other = txnId
    · rw [heq] at hlookup ⊢
      apply hnew (P := fun isolation => isolation.isReadOnly = true)
      cases isolation with
      | snapshot =>
          obtain ⟨txn, hlookup', -⟩ := h.readOnlyTxns txnId flag hlookup
          exact absurd rfl (hne hlookup')
      | serializable =>
          obtain ⟨txn, hlookup', -⟩ := h.readOnlyTxns txnId flag hlookup
          exact absurd rfl (hne hlookup')
      | _ => rfl
    · have hlookup : s.ssiManager.readOnlyTxns.lookup other = some flag := by
        cases isolation <;> first
          | exact hlookup
          | exact (AList.lookup_insert_ne heq).symm.trans hlookup
      exact hold (P := fun isolation => isolation.isReadOnly = true)
        (h.readOnlyTxns other flag hlookup)

/-- A transaction that writes is in no map of the read-only ones. -/
theorem Registered.readOnlyTxns_eq_none (h : s.Registered)
    (hlookup : s.txns.lookup txn.id = some txn) (hwrites : txn.isolation.isReadOnly = false) :
    s.ssiManager.readOnlyTxns.lookup txn.id = none := by
  by_contra hsome
  obtain ⟨flag, hflag⟩ := Option.ne_none_iff_exists'.mp hsome
  obtain ⟨txn', hlookup', hreadOnly⟩ := h.readOnlyTxns txn.id flag hflag
  obtain rfl : txn = txn' := Option.some.inj (hlookup.symm.trans hlookup')
  rw [hwrites] at hreadOnly
  contradiction

/-- A snapshot transaction is in no map at all. -/
theorem Registered.absent_of_not_serializable (h : s.Registered)
    (hlookup : s.txns.lookup txn.id = some txn) (hnot : txn.isolation.isSerializable = false) :
    s.ssiManager.Absent txn.id := by
  have hsnapshot : txn.isolation = .snapshot := by
    cases hisolation : txn.isolation <;> rw [hisolation] at hnot <;> first | rfl | contradiction
  have hwrites : txn.isolation.isReadOnly = false := by rw [hsnapshot]; rfl
  refine ⟨?_, ?_, h.readOnlyTxns_eq_none hlookup hwrites⟩
  · by_contra hsome
    obtain ⟨rw, hrw⟩ := Option.ne_none_iff_exists'.mp hsome
    obtain ⟨txn', hlookup', hserializable⟩ := h.activeTxns txn.id rw hrw
    obtain rfl : txn = txn' := Option.some.inj (hlookup.symm.trans hlookup')
    rw [hsnapshot] at hserializable
    contradiction
  · by_contra hsome
    obtain ⟨startTs, hstart⟩ := Option.ne_none_iff_exists'.mp hsome
    obtain ⟨txn', hlookup', hserializable⟩ := h.activeStartTs txn.id startTs hstart
    obtain rfl : txn = txn' := Option.some.inj (hlookup.symm.trans hlookup')
    rw [hnot] at hserializable
    contradiction

/-! ## What a commit and an abort take out -/

/-- A validation that accepts takes the transaction out of the `SSIManager`. -/
theorem exec_commitStep_drawn (h : s.Registered) (hlookup : s.txns.lookup txn.id = some txn)
    (faults : Faults IoCall) (order : IterOrder) {commitTs : ℕ}
    (hwrites : txn.isolation.isReadOnly = false)
    (hvalid : txn.isolation = .serializable →
      (s.ssiManager.validateAndCommit txn.id txn.startTs commitTs).1 = .ok ()) :
    ∃ ssiManager, exec (commitStep faults order txn (.drawn commitTs)) s =
      (.ok (some (.validated commitTs)), { s with ssiManager }) ∧ ssiManager.Absent txn.id := by
  have hnot : ¬ txn.isolation.isReadOnly = true := by simp [hwrites]
  have hexec : exec (commitStep faults order txn (.drawn commitTs)) s =
      ((exec (validateSsi txn commitTs) s).1.map fun _ => some (.validated commitTs),
        (exec (validateSsi txn commitTs) s).2) := by
    rw [commitStep_drawn, MvccSystem.commitNext, if_neg hnot, exec_bind_pure]
  by_cases hserializable : txn.isolation = .serializable
  · have hok := hvalid hserializable
    refine ⟨(s.ssiManager.validateAndCommit txn.id txn.startTs commitTs).2, ?_, ?_⟩
    · rw [hexec, exec_validateSsi s commitTs hserializable, hok]
      rfl
    · obtain ⟨hactive, hstart⟩ := SSIManager.of_validateAndCommit_ok hok
      have hserves := SSIManager.serves_validateAndCommit s.ssiManager txn.id txn.startTs commitTs
      have hreadOnly := h.readOnlyTxns_eq_none hlookup hwrites
      exact ⟨hactive, hstart, (hserves.readOnlyTxns txn.id (Or.inr hreadOnly)).trans hreadOnly⟩
  · refine ⟨s.ssiManager, ?_, ?_⟩
    · rw [hexec, exec_validateSsi_of_ne s commitTs hserializable]
      rfl
    · apply h.absent_of_not_serializable hlookup
      cases hisolation : txn.isolation <;> rw [hisolation] at hserializable hwrites <;>
        first | rfl | contradiction

theorem exec_commitStep_validated (s : MvccEngine) (txn : Transaction) (faults : Faults IoCall)
    (order : IterOrder) {commitTs : ℕ}
    (hvalid : txn.isolation = .serializable →
      s.txnManager.validateSerializable txn commitTs = .ok ()) :
    exec (commitStep faults order txn (.validated commitTs)) s =
      (.ok (some (.applying (order.operations txn.writeSet))),
        s.setTxn { txn with commitTs := some commitTs }) := by
  have hprepared : s.txnManager.prepareCommit txn commitTs =
      .ok { txn with commitTs := some commitTs } := by
    unfold TransactionManager.prepareCommit
    split
    · next hserializable => rw [hvalid hserializable]
    · rfl
  rw [commitStep_validated, MvccSystem.commitNext, exec_bind_pure, exec_prepareCommit, hprepared]
  rfl

theorem exec_commitStep_writing (s : MvccEngine) (txn : Transaction) {faults : Faults IoCall}
    (order : IterOrder) {ts : ℕ} {op : BatchOperation} (todo : List BatchOperation)
    (hok : (exec (Lsm.writeAt faults ts op) s.storage).1 = .ok ()) :
    exec (commitStep faults order txn (.writing ts op todo)) s =
      (.ok (some (.applying todo)),
        { s with storage := (exec (Lsm.writeAt faults ts op) s.storage).2 }) := by
  have hexec : exec (commitStep faults order txn (.writing ts op todo)) s =
      ((exec (Lsm.writeAt faults ts op) s.storage).1.map fun _ => some (.applying todo),
        { s with storage := (exec (Lsm.writeAt faults ts op) s.storage).2 }) := by
    rw [commitStep, exec_bind_pure]
    rfl
  rw [hexec, hok]
  rfl

/-- The end of a commit takes the transaction out of the `TransactionManager`. -/
theorem exec_commitStep_applied (h : s.Registered) (faults : Faults IoCall) (order : IterOrder)
    (hactive : txn.state = .active) (hcommitTs : txn.commitTs ≠ none) :
    ∃ txnManager, exec (commitStep faults order txn (.applying [])) s =
      (.ok none, { s with txnManager }.setTxn { txn with state := .committed }) ∧
        txn.id ∉ txnManager.activeTxns := by
  obtain ⟨commitTs, hsome⟩ := Option.ne_none_iff_exists'.mp hcommitTs
  have hcommit : s.txnManager.commit txn =
      .ok ({ activeTxns := s.txnManager.activeTxns.erase txn.id
             committedTxns := s.txnManager.committedTxns ++
               [⟨commitTs, txn.startTs, txn.writeSet.writeKeys⟩] },
        { txn with state := .committed }) := by
    simp [TransactionManager.commit, Transaction.isActive, hactive, hsome]
  refine ⟨⟨s.txnManager.activeTxns.erase txn.id, s.txnManager.committedTxns ++
    [⟨commitTs, txn.startTs, txn.writeSet.writeKeys⟩]⟩, ?_, h.nodup.not_mem_erase⟩
  rw [commitStep_applying, MvccSystem.commitNext, exec_bind_pure, exec_managerCommit, hcommit]
  rfl

theorem not_mem_managerAbort (h : s.Registered) (txn : Transaction) :
    txn.id ∉ (s.managerAbort txn).txnManager.activeTxns := h.nodup.not_mem_erase

theorem absent_ssiAbort (h : s.Registered) (hlookup : s.txns.lookup txn.id = some txn) :
    (s.ssiAbort txn.id txn.isolation).ssiManager.Absent txn.id := by
  unfold ssiAbort
  split
  · exact SSIManager.absent_abortTxn _ _
  · next hnot => exact h.absent_of_not_serializable hlookup (by simpa using hnot)

end
end MvccEngine
end Crabstash

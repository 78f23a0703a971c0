import Crabstash.Txn.SetChanges

/-!
# Why a commit fails

The commit of an active transaction succeeds, unless the storage fails, if both validators accept
it (`commitsOrFails_iff`), and a snapshot transaction is not validated.  The commit of a read-only
transaction never succeeds.

A serializable transaction should be refused only if it was overtaken: another one was validated
after its start and has written, by hash, what it has read (`Overtaken`).  There are three other
reasons.  The `SSIManager` may have accepted it in a commit that failed later, and does not know it
any more.  The timestamps may have gone back, so that one validated before it seems to overlap with
it (`Stale`).  And the `TransactionManager` looks at what snapshot transactions have written, which
nobody has validated (`SnapshotConflict`).
-/

namespace Crabstash

open Crabstash.Action

theorem ssiErrorToCommon_ne_io (e : SSIConflict) : ssiErrorToCommon e ≠ .io := by
  cases e <;> simp [ssiErrorToCommon]

namespace MvccEngine

variable {hashKey : Bytes → UInt64} {s : MvccEngine} {txn : Transaction}

/-! ## The two validators -/

/-- Both validators accept the transaction. -/
def Passes (s : MvccEngine) (txn : Transaction) (commitTs : ℕ) : Prop :=
  (exec (validateSsi txn commitTs) s).1 = .ok () ∧
    ∃ txn', s.txnManager.prepareCommit txn commitTs = .ok txn'

theorem validateSsi_ne_io (s : MvccEngine) (txn : Transaction) (commitTs : ℕ) :
    (exec (validateSsi txn commitTs) s).1 ≠ .error .io := by
  by_cases hserializable : txn.isolation = .serializable
  · rw [exec_validateSsi s commitTs hserializable]
    cases (s.ssiManager.validateAndCommit txn.id txn.startTs commitTs).1 with
    | ok _ => simp [Except.mapError]
    | error e => simp [Except.mapError, ssiErrorToCommon_ne_io e]
  · rw [exec_validateSsi_of_ne s commitTs hserializable]
    simp

theorem txnManager_validateSsi (s : MvccEngine) (txn : Transaction) (commitTs : ℕ) :
    (exec (validateSsi txn commitTs) s).2.txnManager = s.txnManager := by
  by_cases hserializable : txn.isolation = .serializable
  · rw [exec_validateSsi s commitTs hserializable]
  · rw [exec_validateSsi_of_ne s commitTs hserializable]

theorem prepareCommit_ne_io (m : TransactionManager) (txn : Transaction) (commitTs : ℕ) :
    m.prepareCommit txn commitTs ≠ .error .io := by
  unfold TransactionManager.prepareCommit TransactionManager.validateSerializable
  split
  · split
    · next hrefused =>
        split at hrefused
        · obtain rfl := Except.error.inj hrefused
          simp
        · contradiction
    · simp
  · simp

/-- Neither of them looks at the clock. -/
theorem passes_drawn (s : MvccEngine) (txn : Transaction) (physical commitTs : ℕ) :
    (s.drawn physical).Passes txn commitTs ↔ s.Passes txn commitTs := by
  unfold Passes
  by_cases hserializable : txn.isolation = .serializable
  · rw [exec_validateSsi s commitTs hserializable,
      exec_validateSsi (s.drawn physical) commitTs hserializable]
    exact Iff.rfl
  · rw [exec_validateSsi_of_ne s commitTs hserializable,
      exec_validateSsi_of_ne (s.drawn physical) commitTs hserializable]
    exact Iff.rfl

/-- A snapshot transaction is not validated. -/
theorem passes_of_ne (s : MvccEngine) (commitTs : ℕ) (hother : txn.isolation ≠ .serializable) :
    s.Passes txn commitTs := by
  refine ⟨?_, _, prepareCommit_snapshot s.txnManager commitTs hother⟩
  rw [exec_validateSsi_of_ne s commitTs hother]

/-- The `TransactionManager` refuses a serializable transaction exactly if it has a conflict with
a committed one. -/
theorem prepareCommit_ok_iff {commitTs : ℕ} (hserializable : txn.isolation = .serializable) :
    (∃ txn', s.txnManager.prepareCommit txn commitTs = .ok txn') ↔
      ¬s.RecordConflict txn commitTs := by
  constructor
  · rintro ⟨txn', hok⟩
    exact not_recordConflict_of_ok hserializable hok
  · intro hclear
    exact ⟨_, prepareCommit_of_not_recordConflict hclear⟩

/-- The `SSIManager` accepts a serializable transaction that it knows, and with which no conflict
is noted or found. -/
theorem validateSsi_ok_iff {commitTs : ℕ} (hserializable : txn.isolation = .serializable) :
    (exec (validateSsi txn commitTs) s).1 = .ok () ↔
      ∃ rw, s.ssiManager.activeTxns.lookup txn.id = some rw ∧ rw.inboundConflicts = [] ∧
        s.ssiManager.findInboundConflicts rw txn.id txn.startTs commitTs = [] ∧
          ¬s.ssiManager.FindsPhantom rw txn.startTs commitTs := by
  have haccepted : (exec (validateSsi txn commitTs) s).1 = .ok () ↔
      (s.ssiManager.validateAndCommitWithKeys txn.id txn.startTs commitTs []).1 = .ok () := by
    rw [exec_validateSsi s commitTs hserializable]
    unfold SSIManager.validateAndCommit
    cases (s.ssiManager.validateAndCommitWithKeys txn.id txn.startTs commitTs []).1 with
    | ok _ => simp [Except.mapError]
    | error e => simp [Except.mapError]
  rw [haccepted]
  cases hactive : s.ssiManager.activeTxns.lookup txn.id with
  | none => simp [SSIManager.validateAndCommitWithKeys, hactive]
  | some rw => simp [SSIManager.validate_ok_iff hactive]

/-! ## The commit -/

/-- The commit returns `Ok` and the transaction is committed, or the storage fails. -/
def CommitsOrFails (s : MvccEngine) (txn : Transaction) (physical : ℕ) : Prop :=
  ∀ order faults,
    (exec (commit order faults txn physical) s).1 = .error .io ∨
      (exec (commit order faults txn physical) s).1 = .ok () ∧
        ∃ txn', (exec (commit order faults txn physical) s).2.txns.lookup txn.id = some txn' ∧
          txn'.state = .committed

/-- What has been applied is committed. -/
theorem committed_of_applyCommit {order : IterOrder} {faults : ℕ → Faults IoCall} {commitTs : ℕ}
    {s' : MvccEngine} (hok : exec (applyCommit order faults txn commitTs) s = (.ok (), s')) :
    ∃ txn', s'.txns.lookup txn.id = some txn' ∧ txn'.state = .committed := by
  unfold applyCommit at hok
  obtain ⟨prepared, s₁, hprepare, hok⟩ := of_exec_bind_ok hok
  obtain ⟨_, s₂, -, hcommit⟩ := of_exec_bind_ok hok
  rw [exec_prepareCommit] at hprepare
  cases hprepared : s.txnManager.prepareCommit txn commitTs with
  | error e =>
      rw [hprepared] at hprepare
      cases hprepare
  | ok txn' =>
      rw [hprepared] at hprepare
      cases hprepare
      obtain rfl := TransactionManager.prepareCommit_ok hprepared
      rw [exec_managerCommit] at hcommit
      split at hcommit
      · next txnManager committed hcommitted =>
          obtain ⟨-, -, rfl⟩ := TransactionManager.commit_ok hcommitted
          cases hcommit
          exact ⟨_, AList.lookup_insert _, rfl⟩
      · cases hcommit

/-- The commit of an active transaction that writes succeeds exactly if both validators accept,
as far as it is not the storage that fails. -/
theorem commitsOrFails_iff (hwrite : ¬txn.isolation.isReadOnly = true)
    (hactive : txn.isActive = true) (physical : ℕ) :
    s.CommitsOrFails txn physical ↔ s.Passes txn (s.tsOracle.getTimestamp physical).1 := by
  generalize hcommitTs : (s.tsOracle.getTimestamp physical).1 = commitTs
  rw [← passes_drawn s txn physical]
  have hmanager := txnManager_validateSsi (s.drawn physical) txn commitTs
  unfold Passes
  rw [← hmanager]
  cases hvalidated : exec (validateSsi txn commitTs) (s.drawn physical) with
  | mk result s' =>
      cases result with
      | error e =>
          -- nothing else is called, and it is not an error of the storage
          have hne := validateSsi_ne_io (s.drawn physical) txn commitTs
          rw [hvalidated] at hne
          constructor
          · intro h
            have hrun := h .inserted fun _ => noFaults
            rw [exec_commit_write s physical hwrite, hcommitTs, exec_bind_error hvalidated] at hrun
            rcases hrun with hio | ⟨hok, -⟩
            · exact absurd hio hne
            · contradiction
          · rintro ⟨habsurd, -⟩
            contradiction
      | ok _ =>
          rw [and_iff_right rfl]
          constructor
          · intro h
            have hrun := h .inserted fun _ => noFaults
            rw [exec_commit_write s physical hwrite, hcommitTs, exec_bind_ok hvalidated] at hrun
            cases hprepared : s'.txnManager.prepareCommit txn commitTs with
            | ok txn' => exact ⟨txn', rfl⟩
            | error e =>
                rw [exec_applyCommit_rejected hprepared] at hrun
                rcases hrun with hio | ⟨hok, -⟩
                · obtain rfl : e = .io := Except.error.inj hio
                  exact absurd hprepared (prepareCommit_ne_io s'.txnManager txn commitTs)
                · contradiction
          · rintro ⟨txn', hprepared⟩ order faults
            rw [exec_commit_write s physical hwrite, hcommitTs, exec_bind_ok hvalidated]
            cases happlied : exec (applyCommit order faults txn commitTs) s' with
            | mk result s'' =>
                cases result with
                | ok _ => exact Or.inr ⟨rfl, committed_of_applyCommit happlied⟩
                | error e =>
                    left
                    by_contra hne
                    have herror : (exec (applyCommit order faults txn commitTs) s').1 =
                        .error e := by rw [happlied]
                    obtain ⟨hinactive, -⟩ := exec_applyCommit_prepared hprepared order faults herror
                      fun hio => hne (congrArg Except.error hio)
                    rw [hactive] at hinactive
                    contradiction

end MvccEngine

/-! ## Reasons -/

/-- It has written, by hash, what the transaction has read. -/
def Validation.Overwrites (hashKey : Bytes → UInt64) (v : Validation) (txn : Transaction) : Prop :=
  ∃ key ∈ txn.readSet, hashKey key ∈ v.writeKeys

instance (hashKey : Bytes → UInt64) (v : Validation) (txn : Transaction) :
    Decidable (v.Overwrites hashKey txn) :=
  inferInstanceAs (Decidable (∃ key ∈ txn.readSet, _))

theorem Validation.Overwrites.mono {hashKey : Bytes → UInt64} {v : Validation}
    {txn txn' : Transaction} (h : v.Overwrites hashKey txn) (hreads : txn.readSet ⊆ txn'.readSet) :
    v.Overwrites hashKey txn' := by
  obtain ⟨key, hkey, hwritten⟩ := h
  exact ⟨key, hreads hkey, hwritten⟩

/-- A commit of the transaction has been refused, and has left a conflict in its set. -/
def MvccEngine.ConflictNoted (s : MvccEngine) (txnId : ℕ) : Prop :=
  ∃ rw ∈ s.ssiManager.activeTxns.lookup txnId, rw.inboundConflicts ≠ []

instance (s : MvccEngine) (txnId : ℕ) : Decidable (s.ConflictNoted txnId) :=
  inferInstanceAs (Decidable (∃ rw ∈ s.ssiManager.activeTxns.lookup txnId, _))

/-- What a step enters into the history of the `TransactionManager` for a snapshot transaction. -/
def TxnSystem.snapshotBy (s : TxnSystem) (action : TxnStep) : Option CommitRecord :=
  match s.recordBy action with
  | some (.snapshot, record) => some record
  | _ => none

theorem TxnSystem.snapshotBy_eq_some_iff {s : TxnSystem} {action : TxnStep}
    {record : CommitRecord} :
    s.snapshotBy action = some record ↔ s.recordBy action = some (.snapshot, record) := by
  unfold snapshotBy
  split
  · next hrecord => simp [hrecord]
  · next hother =>
      constructor
      · intro habsurd
        contradiction
      · intro hrecord
        exact absurd hrecord (hother record)

/-- The system, the validations that have accepted, and the snapshot transactions that have
committed. -/
structure CommitReasons where
  system : TxnSystem
  validations : List Validation
  snapshots : List CommitRecord

namespace CommitReasons

/-- No transaction has begun. -/
def init (storage : Lsm) (config : LockConfig) : CommitReasons :=
  { system := TxnSystem.init storage config, validations := [], snapshots := [] }

variable (hashKey : Bytes → UInt64)

/-- The system after the step, with the validations it has made and the snapshots it has taken.
-/
def step (h : CommitReasons) (action : TxnStep) : CommitReasons :=
  { system := h.system.step hashKey action
    validations := h.validations ++ (h.system.validationBy action).toList
    snapshots := h.snapshots ++ (h.system.snapshotBy action).toList }

/-- Another transaction was validated after the start of this one and has written what it has
read. -/
def Overtaken (h : CommitReasons) (txn : Transaction) : Prop :=
  ∃ v ∈ h.validations, v.txnId ≠ txn.id ∧ txn.id < v.nextTxnId ∧ v.Overwrites hashKey txn

/-- The commit of the transaction succeeds, or the storage fails, or it is serializable and was
overtaken. -/
def FailsForReason (h : CommitReasons) (txn : Transaction) (physical : ℕ) : Prop :=
  h.system.engine.CommitsOrFails txn physical ∨
    txn.isolation = .serializable ∧ h.Overtaken hashKey txn

/-- One that was validated before the start of the transaction and has written what it has read
seems to overlap with it, going by the timestamps. -/
def Stale (h : CommitReasons) (txn : Transaction) (commitTs : ℕ) : Prop :=
  ∃ v ∈ h.validations, v.nextTxnId ≤ txn.id ∧ v.Overwrites hashKey txn ∧
    txn.startTs < v.commitTs ∧ (v.startTs < commitTs ∨ h.system.engine.ConflictNoted txn.id)

/-- A snapshot transaction that overlaps with this one has written what it has read. -/
def SnapshotConflict (h : CommitReasons) (txn : Transaction) (commitTs : ℕ) : Prop :=
  ∃ record ∈ h.snapshots, record.Overtakes txn commitTs

/-- The transaction writes; and if it is serializable, it was overtaken or there is nothing in
its way. -/
def MayCommit (h : CommitReasons) (txn : Transaction) (commitTs : ℕ) : Prop :=
  txn.isolation.isReadOnly = false ∧
    (txn.isolation = .serializable → h.Overtaken hashKey txn ∨
      (∀ v ∈ h.validations, v.txnId ≠ txn.id) ∧ ¬h.Stale hashKey txn commitTs ∧
        ¬h.SnapshotConflict txn commitTs)

instance (h : CommitReasons) (txn : Transaction) : Decidable (h.Overtaken hashKey txn) :=
  inferInstanceAs (Decidable (∃ v ∈ h.validations, _))

instance (h : CommitReasons) (txn : Transaction) (commitTs : ℕ) :
    Decidable (h.Stale hashKey txn commitTs) :=
  inferInstanceAs (Decidable (∃ v ∈ h.validations, _))

instance (h : CommitReasons) (txn : Transaction) (commitTs : ℕ) :
    Decidable (h.SnapshotConflict txn commitTs) :=
  inferInstanceAs (Decidable (∃ record ∈ h.snapshots, _))

instance (h : CommitReasons) (txn : Transaction) (commitTs : ℕ) :
    Decidable (h.MayCommit hashKey txn commitTs) :=
  inferInstanceAs (Decidable (_ ∧ (_ → _)))

/-! ## The invariant -/

/-- What is in the set of a transaction comes from what it has read and from validations. -/
structure SetTraced (validations : List Validation) (txn : Transaction) (rw : ReadWriteSet) :
    Prop where
  ranges : rw.readRanges = []
  reads : ∀ hash ∈ rw.readKeys, ∃ key ∈ txn.readSet, hashKey key = hash
  inbound : rw.inboundConflicts ≠ [] →
    ∃ v ∈ validations, txn.startTs < v.commitTs ∧ v.Overwrites hashKey txn

/-- What a run keeps: which validations a transaction has behind it, and what of it the manager
holds. -/
structure Traced (h : CommitReasons) : Prop where
  searched : h.system.Searched hashKey
  validated : ∀ v ∈ h.validations, h.system.Known v.txnId ∧
    h.system.engine.ssiManager.activeTxns.lookup v.txnId = none
  registered : ∀ txnId txn, h.system.engine.txns.lookup txnId = some txn →
    txn.isolation = .serializable → txn.isActive = true →
      (∃ v ∈ h.validations, v.txnId = txnId) ∨
        ∃ rw, h.system.engine.ssiManager.activeTxns.lookup txnId = some rw
  index : ∀ hash entry, entry ∈ h.system.engine.ssiManager.writersOf hash ↔
    ∃ v ∈ h.validations, hash ∈ v.writeKeys ∧ entry = ⟨v.commitTs, v.startTs⟩
  sets : ∀ txnId rw txn, h.system.engine.ssiManager.activeTxns.lookup txnId = some rw →
    h.system.engine.txns.lookup txnId = some txn → SetTraced hashKey h.validations txn rw
  records : ∀ record ∈ h.system.engine.txnManager.committedTxns,
    record ∈ h.snapshots ∨ h.system.engine.RecordIndexed hashKey record
  snapshots : h.snapshots ⊆ h.system.engine.txnManager.committedTxns

theorem traced_init (storage : Lsm) (config : LockConfig) :
    (init storage config).Traced hashKey where
  searched := TxnSystem.searched_init hashKey storage config
  validated := by
    intro v hv
    contradiction
  registered := by
    intro txnId txn hlookup
    contradiction
  index := by
    intro hash entry
    constructor
    · intro hentry
      contradiction
    · rintro ⟨v, hv, -⟩
      contradiction
  sets := by
    intro txnId rw txn hset
    contradiction
  records := by
    intro record hrecord
    contradiction
  snapshots := by
    intro record hrecord
    contradiction

variable {hashKey} {h : CommitReasons} {action : TxnStep} {txn txn' : Transaction}
  {rw : ReadWriteSet}

theorem SetTraced.mono {validations validations' : List Validation}
    (htraced : SetTraced hashKey validations txn rw) (hstart : txn'.startTs = txn.startTs)
    (hreads : txn.readSet ⊆ txn'.readSet) (hold : validations ⊆ validations') :
    SetTraced hashKey validations' txn' rw where
  ranges := htraced.ranges
  reads := by
    intro hash hhash
    obtain ⟨key, hkey, heq⟩ := htraced.reads hash hhash
    exact ⟨key, hreads hkey, heq⟩
  inbound := by
    intro hnoted
    obtain ⟨v, hv, hlt, hoverwrites⟩ := htraced.inbound hnoted
    exact ⟨v, hold hv, hstart ▸ hlt, hoverwrites.mono hreads⟩

/-! ## Steps -/

theorem mem_validations_step {v : Validation} : v ∈ (h.step hashKey action).validations ↔
    v ∈ h.validations ∨ h.system.validationBy action = some v := by
  show v ∈ h.validations ++ (h.system.validationBy action).toList ↔ _
  rw [List.mem_append, Option.mem_toList]

theorem validations_subset_step :
    h.validations ⊆ (h.step hashKey action).validations := List.subset_append_left _ _

theorem Traced.validated_step (htraced : h.Traced hashKey) {v : Validation}
    (hv : v ∈ (h.step hashKey action).validations) :
    (h.step hashKey action).system.Known v.txnId ∧
      (h.step hashKey action).system.engine.ssiManager.activeTxns.lookup v.txnId = none := by
  have hlocked := htraced.searched.locked
  rcases mem_validations_step.mp hv with hold | hnew
  · obtain ⟨hknown, hgone⟩ := htraced.validated v hold
    exact ⟨TxnSystem.known_step hlocked hknown action, TxnSystem.set_absent hlocked hknown hgone⟩
  · obtain ⟨hknown, -, hgone⟩ := TxnSystem.of_validationBy hashKey hlocked hnew
    exact ⟨TxnSystem.known_step hlocked hknown action, hgone⟩

/-- Nobody becomes active again. -/
theorem isActive_of_change {s : TxnSystem} (hchange : TxnSystem.TxnChange s action txn txn')
    (hactive : txn'.isActive = true) : txn.isActive = true := by
  cases hchange with
  | reads =>
      unfold Transaction.recordRead at hactive
      split at hactive <;> exact hactive
  | commits => contradiction
  | aborts => contradiction
  | _ => exact hactive

theorem Traced.registered_step (htraced : h.Traced hashKey) {txnId : ℕ}
    (hlookup' : (h.step hashKey action).system.engine.txns.lookup txnId = some txn')
    (hserializable : txn'.isolation = .serializable) (hactive : txn'.isActive = true) :
    (∃ v ∈ (h.step hashKey action).validations, v.txnId = txnId) ∨
      ∃ rw, (h.step hashKey action).system.engine.ssiManager.activeTxns.lookup txnId = some rw := by
  have hlocked := htraced.searched.locked
  cases hlookup : h.system.engine.txns.lookup txnId with
  | none => exact Or.inr ⟨_, TxnSystem.set_begun hlocked hlookup hlookup' hserializable⟩
  | some txn =>
      obtain rfl := hlocked.ids txnId txn hlookup
      obtain ⟨txn'', hlookup'', hchange⟩ := TxnSystem.change_step hashKey hlocked hlookup action
      obtain rfl : txn' = txn'' := Option.some.inj (hlookup'.symm.trans hlookup'')
      have hactive₀ := isActive_of_change hchange hactive
      rw [hchange.isolation] at hserializable
      rcases htraced.registered txn.id txn hlookup hserializable hactive₀ with
        ⟨v, hv, heq⟩ | ⟨rw, hset⟩
      · exact Or.inl ⟨v, validations_subset_step hv, heq⟩
      · rcases TxnSystem.set_kept hashKey hlocked hset action with
          hkept | ⟨v, hnew, heq⟩ | ⟨txn₀, hlookup₀, hended⟩
        · exact Or.inr hkept
        · exact Or.inl ⟨v, mem_validations_step.mpr (Or.inr hnew), heq⟩
        · -- only the abort of a transaction that has ended takes its set away
          obtain rfl : txn₀ = txn := Option.some.inj (hlookup₀.symm.trans hlookup)
          exact absurd (beq_iff_eq.mp hactive₀) hended

theorem Traced.index_step (htraced : h.Traced hashKey) (hash : UInt64) (entry : WriteIndexEntry) :
    entry ∈ (h.step hashKey action).system.engine.ssiManager.writersOf hash ↔
      ∃ v ∈ (h.step hashKey action).validations, hash ∈ v.writeKeys ∧
        entry = ⟨v.commitTs, v.startTs⟩ := by
  have hentry := TxnSystem.mem_writersOf_step htraced.searched.locked
    htraced.searched.noted action hash entry
  rw [htraced.index] at hentry
  simp only [mem_validations_step, or_and_right, exists_or]
  exact hentry

/-- The set of a transaction in whose commit nothing was found. -/
theorem setTraced_new (validations : List Validation) (txn : Transaction) :
    SetTraced hashKey validations txn .new where
  ranges := rfl
  reads := by
    intro hash hhash
    contradiction
  inbound := by
    intro hnoted
    contradiction

theorem SetTraced.recordRead {validations : List Validation}
    (htraced : SetTraced hashKey validations txn rw) {key : Bytes} (hread : key ∈ txn.readSet) :
    SetTraced hashKey validations txn (rw.recordRead (hashKey key)) where
  ranges := htraced.ranges
  reads := by
    intro hash hhash
    rcases List.mem_insert_iff.mp hhash with rfl | hold
    · exact ⟨key, hread, rfl⟩
    · exact htraced.reads hash hold
  inbound := htraced.inbound

theorem SetTraced.recordWrite {validations : List Validation}
    (htraced : SetTraced hashKey validations txn rw) (hash : UInt64) :
    SetTraced hashKey validations txn (rw.recordWrite hash) :=
  ⟨htraced.ranges, htraced.reads, htraced.inbound⟩

/-- A conflict in the index comes from a validation. -/
theorem Traced.of_findInboundConflicts (htraced : h.Traced hashKey)
    (hset : SetTraced hashKey h.validations txn rw) {commitTs : ℕ}
    (hfound : h.system.engine.ssiManager.findInboundConflicts rw txn.id txn.startTs commitTs ≠ []) :
    ∃ v ∈ h.validations, v.Overwrites hashKey txn ∧ txn.startTs < v.commitTs ∧
      v.startTs < commitTs := by
  rw [Ne, SSIManager.findInboundConflicts_eq_nil_iff] at hfound
  push Not at hfound
  obtain ⟨hash, hhash, entry, hentry, hcommit, hstart⟩ := hfound
  obtain ⟨v, hv, hwritten, rfl⟩ := (htraced.index hash entry).mp hentry
  obtain ⟨key, hkey, rfl⟩ := hset.reads hash hhash
  exact ⟨v, hv, ⟨key, hkey, hwritten⟩, hcommit, hstart⟩

theorem Traced.sets_step (htraced : h.Traced hashKey) {txnId : ℕ} {rw' : ReadWriteSet}
    (hset' : (h.step hashKey action).system.engine.ssiManager.activeTxns.lookup txnId = some rw')
    (hlookup' : (h.step hashKey action).system.engine.txns.lookup txnId = some txn') :
    SetTraced hashKey (h.step hashKey action).validations txn' rw' := by
  have hlocked := htraced.searched.locked
  -- the transaction before the step, and what is known of its set then and now
  have hbefore : ∀ rw, h.system.engine.ssiManager.activeTxns.lookup txnId = some rw →
      ∃ txn, h.system.engine.txns.lookup txnId = some txn ∧ SetTraced hashKey h.validations txn rw ∧
        SetTraced hashKey (h.step hashKey action).validations txn' rw := by
    intro rw hset
    obtain ⟨txn, hlookup, -⟩ := htraced.searched.registered.activeTxns txnId rw hset
    have hgrows := (TxnSystem.moves_step hashKey hlocked action).grows
    obtain ⟨txn'', hlookup'', hstart, -, hreads, -⟩ := hgrows.txns txnId txn hlookup
    obtain rfl : txn' = txn'' := Option.some.inj (hlookup'.symm.trans hlookup'')
    have hold := htraced.sets txnId rw txn hset hlookup
    exact ⟨txn, hlookup, hold, hold.mono hstart hreads validations_subset_step⟩
  cases TxnSystem.set_step hlocked hset' with
  | same hset =>
      obtain ⟨-, -, -, hnow⟩ := hbefore rw' hset
      exact hnow
  | begins => exact setTraced_new _ txn'
  | reads hset hlookup'' hread =>
      obtain rfl := Option.some.inj (hlookup''.symm.trans hlookup')
      obtain ⟨-, -, -, hnow⟩ := hbefore _ hset
      exact hnow.recordRead hread
  | writes hset key =>
      obtain ⟨-, -, -, hnow⟩ := hbefore _ hset
      exact hnow.recordWrite (hashKey key)
  | @refused rw txn commitTs hset hcommitting htxns outbound =>
      obtain ⟨txn₀, hlookup, hold, hnow⟩ := hbefore rw hset
      obtain rfl : txn₀ = txn :=
        Option.some.inj (hlookup.symm.trans (TxnSystem.lookup_of_committing hcommitting))
      have hsame : txn' = txn₀ := by
        have hlookup' : (h.system.step hashKey action).engine.txns.lookup txnId = some txn' :=
          hlookup'
        rw [htxns, hlookup] at hlookup'
        exact (Option.some.inj hlookup').symm
      subst hsame
      obtain rfl := hlocked.ids txnId txn' hlookup
      refine ⟨hnow.ranges, hnow.reads, fun hnoted => ?_⟩
      by_cases hfound : h.system.engine.ssiManager.findInboundConflicts rw txn'.id txn'.startTs
          commitTs = []
      · rw [hfound, List.append_nil] at hnoted
        exact hnow.inbound hnoted
      · obtain ⟨v, hv, hoverwrites, hlt, -⟩ := htraced.of_findInboundConflicts hold hfound
        exact ⟨v, validations_subset_step hv, hlt, hoverwrites⟩

theorem Traced.records_step (htraced : h.Traced hashKey) {record : CommitRecord}
    (hrecord : record ∈ (h.step hashKey action).system.engine.txnManager.committedTxns) :
    record ∈ (h.step hashKey action).snapshots ∨
      (h.step hashKey action).system.engine.RecordIndexed hashKey record := by
  have hsearched := htraced.searched
  have hgrows := (TxnSystem.moves_step hashKey hsearched.locked action).grows
  rcases TxnSystem.mem_records_step hsearched.unprepared hrecord with hold | ⟨isolation, hnew⟩
  · exact (htraced.records record hold).imp (List.mem_append_left _) hgrows.recordIndexed
  · have hreadOnly : isolation.isReadOnly = true → False := by
      intro hreadOnly
      obtain ⟨txnId, txn, _, hcommitting, rfl, -⟩ := TxnSystem.of_recordBy hnew
      obtain ⟨_, habsurd⟩ := hsearched.unprepared.drawn txnId txn _
        (TxnSystem.lookup_of_committing hcommitting) (TxnSystem.commits_of_committing hcommitting)
        hreadOnly
      contradiction
    cases isolation with
    | snapshot =>
        left
        apply List.mem_append_right
        rw [Option.mem_toList]
        exact TxnSystem.snapshotBy_eq_some_iff.mpr hnew
    | serializable => exact Or.inr (hgrows.recordIndexed (hsearched.recordIndexed hnew))
    | serializableReadOnly => exact absurd rfl hreadOnly
    | serializableDeferrable => exact absurd rfl hreadOnly

theorem Traced.snapshots_step (htraced : h.Traced hashKey) (action : TxnStep) :
    (h.step hashKey action).snapshots ⊆
      (h.step hashKey action).system.engine.txnManager.committedTxns := by
  intro record hrecord
  show record ∈ (h.system.step hashKey action).engine.txnManager.committedTxns
  rw [TxnSystem.committedTxns_step hashKey htraced.searched.unprepared action, List.mem_append]
  rcases List.mem_append.mp hrecord with hold | hnew
  · exact Or.inl (htraced.snapshots hold)
  · rw [Option.mem_toList] at hnew
    rw [TxnSystem.snapshotBy_eq_some_iff.mp hnew]
    exact Or.inr List.mem_cons_self

theorem Traced.step (htraced : h.Traced hashKey) (action : TxnStep) :
    (h.step hashKey action).Traced hashKey where
  searched := htraced.searched.step action
  validated := fun _ hv => htraced.validated_step hv
  registered := fun _ _ hlookup hserializable hactive =>
    htraced.registered_step hlookup hserializable hactive
  index := htraced.index_step
  sets := fun _ _ _ hset hlookup => htraced.sets_step hset hlookup
  records := fun _ hrecord => htraced.records_step hrecord
  snapshots := htraced.snapshots_step action

/-! ## The commit of an active transaction -/

/-- Nothing is found of a serializable transaction with nothing in its way. -/
theorem Traced.validates (htraced : h.Traced hashKey)
    (hlookup : h.system.engine.txns.lookup txn.id = some txn) (hactive : txn.isActive = true)
    (hserializable : txn.isolation = .serializable) {commitTs : ℕ}
    (hnew : ∀ v ∈ h.validations, v.txnId ≠ txn.id) (hcurrent : ¬h.Overtaken hashKey txn)
    (hfresh : ¬h.Stale hashKey txn commitTs) :
    (exec (MvccEngine.validateSsi txn commitTs) h.system.engine).1 = .ok () := by
  rw [MvccEngine.validateSsi_ok_iff hserializable]
  rcases htraced.registered txn.id txn hlookup hserializable hactive with
    ⟨v, hv, heq⟩ | ⟨rw, hset⟩
  · exact absurd heq (hnew v hv)
  · have hsetTraced := htraced.sets txn.id rw txn hset hlookup
    -- whoever has written what was read was validated before the start
    have hbefore : ∀ v ∈ h.validations, v.Overwrites hashKey txn → v.nextTxnId ≤ txn.id := by
      intro v hv hoverwrites
      by_contra hafter
      exact hcurrent ⟨v, hv, hnew v hv, not_le.mp hafter, hoverwrites⟩
    refine ⟨rw, hset, ?_, ?_, ?_⟩
    · by_contra hnoted
      obtain ⟨v, hv, hlt, hoverwrites⟩ := hsetTraced.inbound hnoted
      exact hfresh ⟨v, hv, hbefore v hv hoverwrites, hoverwrites, hlt,
        Or.inr ⟨rw, hset, hnoted⟩⟩
    · by_contra hfound
      obtain ⟨v, hv, hoverwrites, hlt, hstart⟩ :=
        htraced.of_findInboundConflicts hsetTraced hfound
      exact hfresh ⟨v, hv, hbefore v hv hoverwrites, hoverwrites, hlt, Or.inl hstart⟩
    · rintro ⟨_, _, _, _, _, key, -, hin⟩
      rw [hsetTraced.ranges] at hin
      contradiction

/-- A serializable transaction that the `SSIManager` accepts has nothing in its way there. -/
theorem Traced.of_validates (htraced : h.Traced hashKey)
    (hlookup : h.system.engine.txns.lookup txn.id = some txn)
    (hserializable : txn.isolation = .serializable) {commitTs : ℕ}
    (hok : (exec (MvccEngine.validateSsi txn commitTs) h.system.engine).1 = .ok ()) :
    (∀ v ∈ h.validations, v.txnId ≠ txn.id) ∧ ¬h.Stale hashKey txn commitTs := by
  obtain ⟨rw, hset, hnoted, hfound, -⟩ := (MvccEngine.validateSsi_ok_iff hserializable).mp hok
  rw [SSIManager.findInboundConflicts_eq_nil_iff] at hfound
  constructor
  · rintro v hv heq
    obtain ⟨-, hgone⟩ := htraced.validated v hv
    rw [heq, hset] at hgone
    contradiction
  · rintro ⟨v, hv, -, ⟨key, hkey, hwritten⟩, hlt, hstart | ⟨rw', hset', hnoted'⟩⟩
    · have hentry := (htraced.index (hashKey key) ⟨v.commitTs, v.startTs⟩).mpr
        ⟨v, hv, hwritten, rfl⟩
      have hread := (htraced.searched.noted txn.id txn hlookup).reads rw hset key hkey
      exact hfound (hashKey key) hread _ hentry ⟨hlt, hstart⟩
    · obtain rfl : rw = rw' := Option.some.inj (hset.symm.trans hset')
      exact hnoted' hnoted

/-- The second validator finds what snapshot transactions have written, and what the first one
has found. -/
theorem Traced.recordConflict_iff (htraced : h.Traced hashKey)
    (hlookup : h.system.engine.txns.lookup txn.id = some txn)
    (hserializable : txn.isolation = .serializable) {commitTs : ℕ}
    (hok : (exec (MvccEngine.validateSsi txn commitTs) h.system.engine).1 = .ok ()) :
    h.system.engine.RecordConflict txn commitTs ↔ h.SnapshotConflict txn commitTs := by
  constructor
  · rintro ⟨record, hrecord, hcommit, hstart, key, hread, hwritten⟩
    rcases htraced.records record hrecord with hsnapshot | hindexed
    · exact ⟨record, hsnapshot, hcommit, hstart, key, hread, hwritten⟩
    · obtain ⟨hclear, -⟩ :=
        MvccEngine.of_validateSsi_ok htraced.searched.noted hlookup hserializable hok
      exact absurd (hindexed.indexConflict hcommit hstart hread hwritten) hclear
  · rintro ⟨record, hrecord, hovertakes⟩
    exact ⟨record, htraced.snapshots hrecord, hovertakes⟩

theorem Traced.passes_iff (htraced : h.Traced hashKey)
    (hlookup : h.system.engine.txns.lookup txn.id = some txn) (hactive : txn.isActive = true)
    (hserializable : txn.isolation = .serializable) (hcurrent : ¬h.Overtaken hashKey txn)
    (commitTs : ℕ) :
    h.system.engine.Passes txn commitTs ↔ (∀ v ∈ h.validations, v.txnId ≠ txn.id) ∧
      ¬h.Stale hashKey txn commitTs ∧ ¬h.SnapshotConflict txn commitTs := by
  unfold MvccEngine.Passes
  rw [MvccEngine.prepareCommit_ok_iff hserializable]
  constructor
  · rintro ⟨hok, hclear⟩
    obtain ⟨hnew, hfresh⟩ := htraced.of_validates hlookup hserializable hok
    rw [htraced.recordConflict_iff hlookup hserializable hok] at hclear
    exact ⟨hnew, hfresh, hclear⟩
  · rintro ⟨hnew, hfresh, hclear⟩
    have hok := htraced.validates hlookup hactive hserializable hnew hcurrent hfresh
    rw [htraced.recordConflict_iff hlookup hserializable hok]
    exact ⟨hok, hclear⟩

theorem traced_run (hashKey : Bytes → UInt64) (storage : Lsm) (config : LockConfig)
    (steps : List TxnStep) :
    (Run.run (step hashKey) (init storage config) steps).Traced hashKey :=
  Run.invariant (Traced hashKey) (fun _ action htraced => htraced.step action)
    (traced_init hashKey storage config) steps

/-- After every run the commit of an active transaction fails only for a reason if and only if the
transaction may commit. -/
theorem failsForReason_iff (hashKey : Bytes → UInt64) (storage : Lsm) (config : LockConfig)
    (steps : List TxnStep) {txnId : ℕ} {txn : Transaction}
    (hunlocked :
      (Run.run (step hashKey) (init storage config) steps).system.unlocked txnId = some txn)
    (hactive : txn.isActive = true) (physical : ℕ) :
    (Run.run (step hashKey) (init storage config) steps).FailsForReason hashKey txn physical ↔
      (Run.run (step hashKey) (init storage config) steps).MayCommit hashKey txn
        ((Run.run (step hashKey) (init storage config) steps).system.engine.tsOracle.getTimestamp
          physical).1 := by
  have htraced := traced_run hashKey storage config steps
  generalize Run.run (step hashKey) (init storage config) steps = h at hunlocked htraced ⊢
  have hlookup := TxnSystem.lookup_of_unlocked hunlocked
  obtain rfl := htraced.searched.locked.ids txnId txn hlookup
  unfold FailsForReason MayCommit
  by_cases hreadOnly : txn.isolation.isReadOnly = true
  · -- nobody has given it a commit timestamp
    constructor
    · rintro (hcommits | ⟨hserializable, -⟩)
      · have hrun := hcommits .inserted fun _ => noFaults
        rw [htraced.searched.unprepared.commit_readOnly hlookup hreadOnly] at hrun
        rcases hrun with habsurd | ⟨habsurd, -⟩
        · contradiction
        · contradiction
      · rw [hserializable] at hreadOnly
        contradiction
    · rintro ⟨hwrites, -⟩
      rw [hreadOnly] at hwrites
      contradiction
  · rw [MvccEngine.commitsOrFails_iff hreadOnly hactive,
      and_iff_right (Bool.eq_false_iff.mpr hreadOnly)]
    by_cases hserializable : txn.isolation = .serializable
    · rw [and_iff_right hserializable, imp_iff_right hserializable]
      -- a transaction that was overtaken may fail; otherwise the check decides
      by_cases hovertaken : h.Overtaken hashKey txn
      · exact iff_of_true (Or.inr hovertaken) (Or.inl hovertaken)
      · rw [htraced.passes_iff hlookup hactive hserializable hovertaken, or_iff_left hovertaken,
          or_iff_right hovertaken]
    · have hpasses := MvccEngine.passes_of_ne h.system.engine
        (h.system.engine.tsOracle.getTimestamp physical).1 hserializable
      exact iff_of_true (Or.inl hpasses) fun habsurd => absurd habsurd hserializable

/-! ## A reader and a read-only transaction -/

/-- A hash that only sees the first byte of a key. -/
def firstByte (key : Bytes) : UInt64 := (key.headD 0).toUInt64

/-- The runs of the examples, with the first byte of a key as its hash. -/
def runOf (steps : List TxnStep) : CommitReasons :=
  Run.run (step firstByte) (init (Lsm.openDir 100 Dir.empty) LockConfig.default) steps

/-- The first transaction reads a key; the second one writes another and commits. -/
def readWhileCommitted : List TxnStep :=
  TxnHandles.beginSerializable 1 ++ TxnHandles.beginSerializable 2 ++ [.get 1 [7]] ++
    CommitHistory.putKey 2 0 [8] ++ CommitHistory.commitAll 2 1 [8]

/-- The transaction that has read, as it is before its commit. -/
def reader : Transaction :=
  ((runOf readWhileCommitted).system.unlocked 1).get (by decide +kernel)

theorem failsForReason_reader : (runOf readWhileCommitted).FailsForReason firstByte reader 3 :=
  (failsForReason_iff firstByte _ _ readWhileCommitted (Option.some_get _).symm
    (by decide +kernel) 3).mpr (by decide +kernel)

/-- A read-only transaction that has done nothing yet. -/
def beginReadOnly : List TxnStep := SnapshotHistory.beginAt .serializableReadOnly 1 1

theorem not_failsForReason_readOnly :
    ∃ txn, (runOf beginReadOnly).system.unlocked 1 = some txn ∧ txn.isActive = true ∧
      ¬(runOf beginReadOnly).FailsForReason firstByte txn 2 := by
  have hunlocked : (runOf beginReadOnly).system.unlocked 1 =
      some (Transaction.new 1 (1 <<< 18) .serializableReadOnly) := rfl
  refine ⟨_, hunlocked, rfl, ?_⟩
  rintro (hcommits | ⟨hserializable, -⟩)
  · have htraced := traced_run firstByte (Lsm.openDir 100 Dir.empty) LockConfig.default
      beginReadOnly
    have haborted := htraced.searched.unprepared.commit_readOnly
      (TxnSystem.lookup_of_unlocked hunlocked) rfl .inserted (fun _ => noFaults) 2
    have hrun := hcommits .inserted fun _ => noFaults
    rw [runOf, haborted] at hrun
    rcases hrun with habsurd | ⟨habsurd, -⟩
    · contradiction
    · contradiction
  · contradiction

end CommitReasons
end Crabstash

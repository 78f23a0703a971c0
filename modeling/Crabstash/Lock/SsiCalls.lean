import Crabstash.Foundations.Run
import Crabstash.Lock.Ssi

/-!
# Calls on an `SSIManager`

Any number of transactions call the methods of one manager, with any arguments and in any
order; a call is a step.

The manager keeps hashes of keys, and of each accepted transaction only what later
validations ask for.  The journal beside it has the keys: what each active transaction has
read and written so far, and all transactions that have been accepted.  It is written from
the calls and their answers alone.  `Tracked` is what the manager knows of the active part,
after any run.
-/

namespace Crabstash

/-- The calls of the manager that change what a validation looks at. -/
inductive SsiCall where
  | beginTxnWithTs (txnId startTs : ℕ)
  | beginReadOnlyTxn (txnId startTs : ℕ)
  | recordRead (txnId : ℕ) (key : Bytes)
  | recordWrite (txnId : ℕ) (key : Bytes)
  | recordRangeRead (txnId : ℕ) (start last : Bound)
  | validateAndCommitWithKeys (txnId readTs commitTs : ℕ) (writtenKeys : List Bytes)
  | abortTxn (txnId : ℕ)
  | commitReadOnlyTxn (txnId : ℕ)
  | advanceWatermark (newWatermark : ℕ)
  deriving DecidableEq, Repr

namespace SsiCall

/-- `validate_and_commit`. -/
def validateAndCommit (txnId readTs commitTs : ℕ) : SsiCall :=
  .validateAndCommitWithKeys txnId readTs commitTs []

/-- Whose call it is. -/
def caller : SsiCall → Option ℕ
  | beginTxnWithTs txnId _ => some txnId
  | beginReadOnlyTxn txnId _ => some txnId
  | recordRead txnId _ => some txnId
  | recordWrite txnId _ => some txnId
  | recordRangeRead txnId _ _ => some txnId
  | validateAndCommitWithKeys txnId _ _ _ => some txnId
  | abortTxn txnId => some txnId
  | commitReadOnlyTxn txnId => some txnId
  | advanceWatermark _ => none

end SsiCall

namespace SSIManager

variable (hashKey : Bytes → UInt64)

/-- The manager after a call. -/
def call (s : SSIManager) : SsiCall → SSIManager
  | .beginTxnWithTs txnId startTs => s.beginTxnWithTs txnId startTs
  | .beginReadOnlyTxn txnId startTs => s.beginReadOnlyTxn txnId startTs
  | .recordRead txnId key => s.recordRead hashKey txnId key
  | .recordWrite txnId key => s.recordWrite hashKey txnId key
  | .recordRangeRead txnId start last => s.recordRangeRead txnId start last
  | .validateAndCommitWithKeys txnId readTs commitTs writtenKeys =>
      (s.validateAndCommitWithKeys txnId readTs commitTs writtenKeys).2
  | .abortTxn txnId => s.abortTxn txnId
  | .commitReadOnlyTxn txnId => s.commitReadOnlyTxn txnId
  | .advanceWatermark newWatermark => s.advanceWatermark newWatermark

/-- The answer to a validation. -/
def accepts (s : SSIManager) (txnId readTs commitTs : ℕ) (writtenKeys : List Bytes) : Bool :=
  (s.validateAndCommitWithKeys txnId readTs commitTs writtenKeys).1.isOk

theorem accepts_eq_true_iff {s : SSIManager} {txnId readTs commitTs : ℕ}
    {writtenKeys : List Bytes} : s.accepts txnId readTs commitTs writtenKeys = true ↔
      (s.validateAndCommitWithKeys txnId readTs commitTs writtenKeys).1 = .ok () := by
  unfold accepts
  cases (s.validateAndCommitWithKeys txnId readTs commitTs writtenKeys).1 with
  | error e => simp [Except.isOk, Except.toBool]
  | ok _ => simp [Except.isOk, Except.toBool]

/-- What a validation comes to, with the manager it leaves. -/
theorem validate_cases (s : SSIManager) (txnId readTs commitTs : ℕ) (writtenKeys : List Bytes) :
    ∃ s', (s.validateAndCommitWithKeys txnId readTs commitTs writtenKeys).2 = s' ∧
      (s.validateAndCommitWithKeys txnId readTs commitTs writtenKeys = (.ok (), s') ∧
          s.accepts txnId readTs commitTs writtenKeys = true ∨
        ∃ e, s.validateAndCommitWithKeys txnId readTs commitTs writtenKeys = (.error e, s') ∧
          s.accepts txnId readTs commitTs writtenKeys = false) := by
  refine ⟨_, rfl, ?_⟩
  unfold accepts
  obtain ⟨result, s'⟩ := s.validateAndCommitWithKeys txnId readTs commitTs writtenKeys
  cases result with
  | ok _ => exact Or.inl ⟨rfl, rfl⟩
  | error e => exact Or.inr ⟨e, rfl, rfl⟩

end SSIManager

/-! ## The journal -/

/-- What an active transaction has done: the keys and ranges it has recorded, and whether
a validation has failed.  It has no start timestamp any more once `commit_read_only_txn` has
been called for it. -/
structure ActiveTxn where
  startTs : Option ℕ
  reads : List Bytes
  writes : List Bytes
  ranges : List (Bound × Bound)
  failed : Bool
  deriving DecidableEq, Repr

/-- A transaction that has been accepted, with the keys it has recorded as written and
those supplied to the validation. -/
structure AcceptedTxn where
  txnId : ℕ
  startTs : ℕ
  commitTs : ℕ
  writes : List Bytes
  writtenKeys : List Bytes
  deriving DecidableEq, Repr

/-- A manager with its journal. -/
structure SsiHistory where
  manager : SSIManager
  active : HashMap ℕ ActiveTxn
  accepted : List AcceptedTxn

namespace SsiHistory

/-- A new manager, before any call. -/
def init : SsiHistory := { manager := SSIManager.new, active := ∅, accepted := [] }

/-- An entry about an active transaction. -/
def amend (h : SsiHistory) (txnId : ℕ) (f : ActiveTxn → ActiveTxn) : SsiHistory :=
  { h with active := h.active.amend txnId f }

/-- The journal after an accepted validation. -/
def accept (h : SsiHistory) (txnId readTs commitTs : ℕ) (writtenKeys : List Bytes) : SsiHistory :=
  match h.active.lookup txnId with
  | none => h
  | some t =>
      { h with
        active := h.active.erase txnId
        accepted :=
          ⟨txnId, t.startTs.getD readTs, commitTs, t.writes, writtenKeys⟩ :: h.accepted }

/-- The journal after a call. -/
def note (h : SsiHistory) : SsiCall → SsiHistory
  | .beginTxnWithTs txnId startTs =>
      { h with active := h.active.insert txnId ⟨some startTs, [], [], [], false⟩ }
  | .beginReadOnlyTxn txnId startTs => h.amend txnId fun t => { t with startTs := some startTs }
  | .recordRead txnId key => h.amend txnId fun t => { t with reads := key :: t.reads }
  | .recordWrite txnId key => h.amend txnId fun t => { t with writes := key :: t.writes }
  | .recordRangeRead txnId start last =>
      h.amend txnId fun t => { t with ranges := t.ranges ++ [(start, last)] }
  | .validateAndCommitWithKeys txnId readTs commitTs writtenKeys =>
      if h.manager.accepts txnId readTs commitTs writtenKeys then
        h.accept txnId readTs commitTs writtenKeys
      else h.amend txnId fun t => { t with failed := true }
  | .abortTxn txnId => { h with active := h.active.erase txnId }
  | .commitReadOnlyTxn txnId => h.amend txnId fun t => { t with startTs := none }
  | .advanceWatermark _ => h

variable (hashKey : Bytes → UInt64)

/-- The manager after the call, with what the history notes of it. -/
def step (h : SsiHistory) (call : SsiCall) : SsiHistory :=
  { h.note call with manager := h.manager.call hashKey call }

/-! ## What the manager knows of the active transactions -/

/-- The manager's set of a transaction and the entry in the journal. -/
structure Keeps (rw : ReadWriteSet) (t : ActiveTxn) : Prop where
  reads : ∀ hash, hash ∈ rw.readKeys ↔ ∃ key ∈ t.reads, hashKey key = hash
  writes : ∀ hash, hash ∈ rw.writeKeys ↔ ∃ key ∈ t.writes, hashKey key = hash
  ranges : rw.readRanges = t.ranges
  unharmed : t.failed = false → rw.inboundConflicts = []

/-- What the manager keeps of active and committed transactions is what the calls have said. -/
structure Tracked (h : SsiHistory) : Prop where
  active : ∀ txnId,
    Option.Rel (Keeps hashKey) (h.manager.activeTxns.lookup txnId) (h.active.lookup txnId)
  startTs : ∀ txnId t, h.active.lookup txnId = some t →
    h.manager.activeStartTs.lookup txnId = t.startTs

variable {hashKey}

theorem tracked_init : Tracked hashKey init where
  active := fun _ => Option.Rel.none
  startTs := by
    intro txnId t hlookup
    contradiction

namespace Tracked

variable {h : SsiHistory}

/-- Active in the journal, active for the manager. -/
theorem exists_of_active (htracked : Tracked hashKey h) {txnId : ℕ} {t : ActiveTxn}
    (hactive : h.active.lookup txnId = some t) :
    ∃ rw, h.manager.activeTxns.lookup txnId = some rw ∧ Keeps hashKey rw t := by
  have hrel := htracked.active txnId
  rw [hactive] at hrel
  cases hlookup : h.manager.activeTxns.lookup txnId with
  | none =>
      rw [hlookup] at hrel
      cases hrel
  | some rw =>
      rw [hlookup] at hrel
      cases hrel with
      | some hkeeps => exact ⟨rw, rfl, hkeeps⟩

theorem exists_of_activeTxns (htracked : Tracked hashKey h) {txnId : ℕ} {rw : ReadWriteSet}
    (hlookup : h.manager.activeTxns.lookup txnId = some rw) :
    ∃ t, h.active.lookup txnId = some t ∧ Keeps hashKey rw t := by
  have hrel := htracked.active txnId
  rw [hlookup] at hrel
  cases hactive : h.active.lookup txnId with
  | none =>
      rw [hactive] at hrel
      cases hrel
  | some t =>
      rw [hactive] at hrel
      cases hrel with
      | some hkeeps => exact ⟨t, rfl, hkeeps⟩

theorem active_eq_none (htracked : Tracked hashKey h) {txnId : ℕ}
    (hlookup : h.manager.activeTxns.lookup txnId = none) : h.active.lookup txnId = none := by
  cases hactive : h.active.lookup txnId with
  | none => rfl
  | some t =>
      obtain ⟨rw, hrw, _⟩ := htracked.exists_of_active hactive
      rw [hrw] at hlookup
      contradiction

/-- Something happens to one transaction on both sides, and nothing to the others. -/
theorem change (htracked : Tracked hashKey h) {h' : SsiHistory} {txnId : ℕ}
    (hself : Option.Rel (Keeps hashKey) (h'.manager.activeTxns.lookup txnId)
      (h'.active.lookup txnId))
    (hstart : ∀ t ∈ h'.active.lookup txnId,
      h'.manager.activeStartTs.lookup txnId = t.startTs)
    (hactiveTxns : ∀ txnId', txnId' ≠ txnId →
      h'.manager.activeTxns.lookup txnId' = h.manager.activeTxns.lookup txnId')
    (hactive : ∀ txnId', txnId' ≠ txnId → h'.active.lookup txnId' = h.active.lookup txnId')
    (hstarts : ∀ txnId', txnId' ≠ txnId →
      h'.manager.activeStartTs.lookup txnId' = h.manager.activeStartTs.lookup txnId') :
    Tracked hashKey h' where
  active := by
    intro txnId'
    by_cases heq : txnId' = txnId
    · rw [heq]
      exact hself
    · rw [hactiveTxns txnId' heq, hactive txnId' heq]
      exact htracked.active txnId'
  startTs := by
    intro txnId' t' hlookup
    by_cases heq : txnId' = txnId
    · rw [heq] at hlookup ⊢
      exact hstart t' hlookup
    · rw [hactive txnId' heq] at hlookup
      rw [hstarts txnId' heq]
      exact htracked.startTs txnId' t' hlookup

/-- A transaction with its set and its entry is put in on both sides. -/
theorem insert (htracked : Tracked hashKey h) {h' : SsiHistory} {txnId : ℕ} {rw : ReadWriteSet}
    {t : ActiveTxn} (hkeeps : Keeps hashKey rw t)
    (hactiveTxns : h'.manager.activeTxns = h.manager.activeTxns.insert txnId rw)
    (hactive : h'.active = h.active.insert txnId t)
    (hstart : h'.manager.activeStartTs.lookup txnId = t.startTs)
    (hstarts : ∀ txnId', txnId' ≠ txnId →
      h'.manager.activeStartTs.lookup txnId' = h.manager.activeStartTs.lookup txnId') :
    Tracked hashKey h' := by
  refine htracked.change ?_ ?_ ?_ ?_ hstarts
  · rw [hactiveTxns, hactive, AList.lookup_insert, AList.lookup_insert]
    exact Option.Rel.some hkeeps
  · intro t' ht'
    rw [hactive, AList.lookup_insert] at ht'
    rw [hstart, Option.some.inj ht']
  · intro txnId' hne
    rw [hactiveTxns, AList.lookup_insert_ne hne]
  · intro txnId' hne
    rw [hactive, AList.lookup_insert_ne hne]

/-- A transaction is gone on both sides. -/
theorem erase (htracked : Tracked hashKey h) {h' : SsiHistory} (txnId : ℕ)
    (hactiveTxns : h'.manager.activeTxns = h.manager.activeTxns.erase txnId)
    (hactive : h'.active = h.active.erase txnId)
    (hstarts : ∀ txnId', txnId' ≠ txnId →
      h'.manager.activeStartTs.lookup txnId' = h.manager.activeStartTs.lookup txnId') :
    Tracked hashKey h' := by
  refine htracked.change ?_ ?_ ?_ ?_ hstarts
  · rw [hactiveTxns, hactive, AList.lookup_erase, AList.lookup_erase]
    exact Option.Rel.none
  · intro t' ht'
    rw [hactive, AList.lookup_erase] at ht'
    contradiction
  · intro txnId' hne
    rw [hactiveTxns, AList.lookup_erase_ne hne]
  · intro txnId' hne
    rw [hactive, AList.lookup_erase_ne hne]

/-- The set of a transaction changes, if it is active, and its entry with it. -/
theorem amend (htracked : Tracked hashKey h) {h' : SsiHistory} {txnId : ℕ}
    {f : ReadWriteSet → ReadWriteSet} {g : ActiveTxn → ActiveTxn}
    (hkeeps : ∀ rw t, h.manager.activeTxns.lookup txnId = some rw →
      h.active.lookup txnId = some t → Keeps hashKey rw t → Keeps hashKey (f rw) (g t))
    (hactiveTxns : ∀ txnId', h'.manager.activeTxns.lookup txnId' =
      (h.manager.activeTxns.amend txnId f).lookup txnId')
    (hactive : h'.active = h.active.amend txnId g)
    (hstart : ∀ t, h.active.lookup txnId = some t →
      h'.manager.activeStartTs.lookup txnId = (g t).startTs)
    (hstarts : ∀ txnId', txnId' ≠ txnId →
      h'.manager.activeStartTs.lookup txnId' = h.manager.activeStartTs.lookup txnId') :
    Tracked hashKey h' := by
  refine htracked.change ?_ ?_ ?_ ?_ hstarts
  · rw [hactiveTxns, hactive, lookup_amend_self, lookup_amend_self]
    cases hrw : h.manager.activeTxns.lookup txnId with
    | none =>
        rw [htracked.active_eq_none hrw]
        exact Option.Rel.none
    | some rw =>
        obtain ⟨t, ht, hkept⟩ := htracked.exists_of_activeTxns hrw
        rw [ht]
        exact Option.Rel.some (hkeeps rw t hrw ht hkept)
  · intro t' ht'
    rw [hactive, lookup_amend_self] at ht'
    obtain ⟨t, ht, rfl⟩ := Option.map_eq_some_iff.mp ht'
    exact hstart t ht
  · intro txnId' hne
    rw [hactiveTxns, lookup_amend_ne _ _ hne]
  · intro txnId' hne
    rw [hactive, lookup_amend_ne _ _ hne]

/-- A record about a transaction, which leaves the start timestamps alone. -/
theorem record (htracked : Tracked hashKey h) {h' : SsiHistory} {txnId : ℕ}
    {f : ReadWriteSet → ReadWriteSet} {g : ActiveTxn → ActiveTxn}
    (hkeeps : ∀ rw t, Keeps hashKey rw t → Keeps hashKey (f rw) (g t))
    (hstartTs : ∀ t, (g t).startTs = t.startTs)
    (hactiveTxns : h'.manager.activeTxns = h.manager.activeTxns.amend txnId f)
    (hactive : h'.active = h.active.amend txnId g)
    (hsame : h.manager.SameCommits h'.manager) : Tracked hashKey h' := by
  apply htracked.amend (fun rw t _ _ => hkeeps rw t) (fun _ => by rw [hactiveTxns]) hactive
  · intro t ht
    rw [hsame.activeStartTs, hstartTs]
    exact htracked.startTs txnId t ht
  · intro txnId' _
    rw [hsame.activeStartTs]

/-- The start timestamp of a transaction changes, or is dropped. -/
theorem restart (htracked : Tracked hashKey h) {h' : SsiHistory} (txnId : ℕ) (start : Option ℕ)
    (hactiveTxns : h'.manager.activeTxns = h.manager.activeTxns)
    (hactive : h'.active = h.active.amend txnId fun t => { t with startTs := start })
    (hstart : h'.manager.activeStartTs.lookup txnId = start)
    (hstarts : ∀ txnId', txnId' ≠ txnId →
      h'.manager.activeStartTs.lookup txnId' = h.manager.activeStartTs.lookup txnId') :
    Tracked hashKey h' := by
  apply htracked.amend (f := id) _ _ hactive _ hstarts
  · intro rw t _ _ hkept
    exact ⟨hkept.reads, hkept.writes, hkept.ranges, hkept.unharmed⟩
  · intro txnId'
    rw [hactiveTxns, lookup_amend_id]
  · intro t _
    exact hstart

end Tracked

theorem Keeps.recordRead {rw : ReadWriteSet} {t : ActiveTxn} (h : Keeps hashKey rw t)
    (key : Bytes) :
    Keeps hashKey (rw.recordRead (hashKey key)) { t with reads := key :: t.reads } where
  reads := by
    intro hash
    simp only [ReadWriteSet.recordRead, List.mem_insert_iff, h.reads, List.mem_cons,
      exists_eq_or_imp, eq_comm (a := hash)]
  writes := h.writes
  ranges := h.ranges
  unharmed := h.unharmed

theorem Keeps.recordWrite {rw : ReadWriteSet} {t : ActiveTxn} (h : Keeps hashKey rw t)
    (key : Bytes) :
    Keeps hashKey (rw.recordWrite (hashKey key)) { t with writes := key :: t.writes } where
  reads := h.reads
  writes := by
    intro hash
    simp only [ReadWriteSet.recordWrite, List.mem_insert_iff, h.writes, List.mem_cons,
      exists_eq_or_imp, eq_comm (a := hash)]
  ranges := h.ranges
  unharmed := h.unharmed

theorem Keeps.recordRangeRead {rw : ReadWriteSet} {t : ActiveTxn} (h : Keeps hashKey rw t)
    (start last : Bound) : Keeps hashKey (rw.recordRangeRead start last)
      { t with ranges := t.ranges ++ [(start, last)] } where
  reads := h.reads
  writes := h.writes
  ranges := congrArg (· ++ [(start, last)]) h.ranges
  unharmed := h.unharmed

/-- What an accepted validation does to the active transactions. -/
theorem activeTxns_of_accepted {s s' : SSIManager} {txnId readTs commitTs : ℕ}
    {writtenKeys : List Bytes}
    (h : s.validateAndCommitWithKeys txnId readTs commitTs writtenKeys = (.ok (), s')) :
    s'.activeTxns = s.activeTxns.erase txnId ∧ s'.activeStartTs = s.activeStartTs.erase txnId := by
  obtain ⟨rw, outbound, _, _, rfl⟩ := SSIManager.validate_ok h
  exact ⟨erase_insert_self txnId _ s.activeTxns, rfl⟩

theorem Tracked.validate {h : SsiHistory} (htracked : Tracked hashKey h)
    (txnId readTs commitTs : ℕ) (writtenKeys : List Bytes) :
    Tracked hashKey
      (h.step hashKey (.validateAndCommitWithKeys txnId readTs commitTs writtenKeys)) := by
  obtain ⟨manager, hsnd, hcases⟩ := h.manager.validate_cases txnId readTs commitTs writtenKeys
  have hmanager : (h.step hashKey
      (.validateAndCommitWithKeys txnId readTs commitTs writtenKeys)).manager = manager := hsnd
  rcases hcases with ⟨hresult, haccepts⟩ | ⟨e, hresult, hrejected⟩
  · -- an accepted transaction is no longer active
    obtain ⟨hactiveTxns, hstarts⟩ := activeTxns_of_accepted hresult
    obtain ⟨rw, _, hrw, _⟩ := SSIManager.validate_ok hresult
    obtain ⟨t, ht, _⟩ := htracked.exists_of_activeTxns hrw
    apply htracked.erase txnId
    · rw [hmanager, hactiveTxns]
    · simp [SsiHistory.step, note, haccepts, accept, ht]
    · intro txnId' hne
      rw [hmanager, hstarts]
      exact AList.lookup_erase_ne hne
  · -- a rejected one stays, with the conflicts that were found
    have hactive : (h.step hashKey
        (.validateAndCommitWithKeys txnId readTs commitTs writtenKeys)).active =
        h.active.amend txnId fun t => { t with failed := true } := by
      simp [SsiHistory.step, note, hrejected, SsiHistory.amend]
    cases hrw : h.manager.activeTxns.lookup txnId with
    | none =>
        -- without an active entry the validation changes nothing
        have hsame : manager = h.manager := by
          rw [SSIManager.validateAndCommitWithKeys, hrw] at hresult
          exact (Prod.mk.inj hresult).2.symm
        apply htracked.amend (f := id) _ _ hactive
        · intro t _
          rw [hmanager, hsame]
          exact htracked.startTs txnId t ‹_›
        · intro txnId' _
          rw [hmanager, hsame]
        · intro rw t hlookup
          rw [hrw] at hlookup
          contradiction
        · intro txnId'
          rw [hmanager, hsame, lookup_amend_id]
    | some rw =>
        obtain ⟨outbound, hset⟩ := SSIManager.validate_error_of_active hrw hresult
        apply htracked.amend (f := fun rw => { rw with
          inboundConflicts := rw.inboundConflicts ++
            h.manager.findInboundConflicts rw txnId readTs commitTs
          outboundConflicts := outbound }) _ _ hactive
        · intro t ht
          rw [hmanager, hset]
          exact htracked.startTs txnId t ht
        · intro txnId' _
          rw [hmanager, hset]
        · intro rw t _ _ hkept
          exact ⟨hkept.reads, hkept.writes, hkept.ranges, fun hfalse => by contradiction⟩
        · intro txnId'
          rw [hmanager, hset, HashMap.amend, hrw]

theorem Tracked.step {h : SsiHistory} (htracked : Tracked hashKey h) (call : SsiCall) :
    Tracked hashKey (h.step hashKey call) := by
  cases call with
  | beginTxnWithTs txnId startTs =>
      -- a new transaction has recorded nothing on either side
      have hkeeps : Keeps hashKey ReadWriteSet.new ⟨some startTs, [], [], [], false⟩ :=
        ⟨by simp [ReadWriteSet.new], by simp [ReadWriteSet.new], rfl, fun _ => rfl⟩
      apply htracked.insert hkeeps rfl rfl
      · exact AList.lookup_insert _
      · intro txnId' hne
        exact AList.lookup_insert_ne hne
  | beginReadOnlyTxn txnId startTs =>
      apply htracked.restart txnId (some startTs)
      · rfl
      · rfl
      · exact AList.lookup_insert _
      · intro txnId' hne
        exact AList.lookup_insert_ne hne
  | recordRead txnId key =>
      exact htracked.record (fun _ _ hkept => hkept.recordRead key) (fun _ => rfl)
        (SSIManager.activeTxns_recordRead hashKey h.manager txnId key) rfl
        (SSIManager.sameCommits_recordRead hashKey h.manager txnId key)
  | recordWrite txnId key =>
      exact htracked.record (fun _ _ hkept => hkept.recordWrite key) (fun _ => rfl)
        (SSIManager.activeTxns_recordWrite hashKey h.manager txnId key) rfl
        (SSIManager.sameCommits_recordWrite hashKey h.manager txnId key)
  | recordRangeRead txnId start last =>
      exact htracked.record (fun _ _ hkept => hkept.recordRangeRead start last) (fun _ => rfl)
        (SSIManager.activeTxns_recordRangeRead h.manager txnId start last) rfl
        (SSIManager.sameCommits_recordRangeRead h.manager txnId start last)
  | validateAndCommitWithKeys txnId readTs commitTs writtenKeys =>
      exact htracked.validate txnId readTs commitTs writtenKeys
  | abortTxn txnId =>
      apply htracked.erase txnId rfl rfl
      intro txnId' hne
      exact AList.lookup_erase_ne hne
  | commitReadOnlyTxn txnId =>
      apply htracked.restart txnId none
      · rfl
      · rfl
      · exact AList.lookup_erase _ _
      · intro txnId' hne
        exact AList.lookup_erase_ne hne
  | advanceWatermark newWatermark =>
      have hkept : (h.manager.advanceWatermark newWatermark).activeTxns = h.manager.activeTxns ∧
          (h.manager.advanceWatermark newWatermark).activeStartTs = h.manager.activeStartTs := by
        unfold SSIManager.advanceWatermark
        split <;> exact ⟨rfl, rfl⟩
      refine ⟨fun txnId => ?_, fun txnId t hlookup => ?_⟩
      · show Option.Rel _ ((h.manager.advanceWatermark newWatermark).activeTxns.lookup txnId) _
        rw [hkept.1]
        exact htracked.active txnId
      · show (h.manager.advanceWatermark newWatermark).activeStartTs.lookup txnId = _
        rw [hkept.2]
        exact htracked.startTs txnId t hlookup

end SsiHistory
end Crabstash

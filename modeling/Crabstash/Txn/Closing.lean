import Crabstash.Txn.Apart
import Crabstash.Txn.LostUpdates

/-!
# Closing a transaction

A `Txn` is consumed by its `commit` or `abort`, so that no other call of the transaction is
under way then, and none comes later.  How much of the transaction is still there depends
on how far the call has come (`Closing`): a commit first takes it out of the `SSIManager`,
then out of the `TransactionManager` and last out of the lock table, an abort in another
order.  Steps of others do not change this (`Apart.closing`), and each step of the call
itself goes on to the next stage, unless the commit returns early (`CommitReady`).

Until then only calls of `put` and `delete` are under way (`Open`).
-/
namespace Crabstash

open Crabstash.Action

namespace EngineCall

/-- A call of `put` or `delete`. -/
def Writes : EngineCall → Prop
  | write _ _ _ _ => True
  | record _ _ _ => True
  | store _ _ => True
  | _ => False

end EngineCall

namespace TxnSystem

/-- A call of the transaction is under way that holds no guard. -/
def busy (s : TxnSystem) (txnId : ℕ) : Bool := s.calls.entries.any fun e => e.2.txnId == txnId

theorem busy_iff {s : TxnSystem} {txnId : ℕ} :
    s.busy txnId = true ↔ ∃ callId call, s.calls.lookup callId = some call ∧ call.txnId = txnId := by
  unfold busy
  rw [List.any_eq_true]
  constructor
  · rintro ⟨⟨callId, call⟩, hmem, heq⟩
    exact ⟨callId, call, AList.mem_lookup_iff.mpr hmem, by simpa using heq⟩
  · rintro ⟨callId, call, hlookup, heq⟩
    exact ⟨⟨callId, call⟩, AList.mem_lookup_iff.mp hlookup, by simpa using heq⟩

/-! ## Open and closing transactions -/

/-- Nothing mentions the transaction. -/
structure Clean (s : TxnSystem) (txnId : ℕ) : Prop where
  locks : s.locks.Gone txnId
  ssi : s.engine.ssiManager.Absent txnId
  manager : txnId ∉ s.engine.txnManager.activeTxns

/-- Nobody has closed the transaction. -/
structure Open (s : TxnSystem) (txnId : ℕ) : Prop where
  commits : s.commits.lookup txnId = none
  writes : ∀ callId call, s.calls.lookup callId = some call → call.txnId = txnId → call.Writes
  active : s.Known txnId → s.Active txnId

/-- What is done of a commit, and what it still needs. -/
def CommitTidy (s : TxnSystem) (txnId : ℕ) : CommitProgress → Prop
  | .drawn _ => True
  | .validated _ => s.engine.ssiManager.Absent txnId
  | _ => s.engine.ssiManager.Absent txnId ∧
      ∃ txn, s.engine.txns.lookup txnId = some txn ∧ txn.commitTs ≠ none

/-- What is gone before a step of a clean-up. -/
def CallTidy (s : TxnSystem) (txnId : ℕ) : EngineCall → Prop
  | .ssiAbort _ isolation => txnId ∉ s.engine.txnManager.activeTxns ∧
      ∃ txn, s.engine.txns.lookup txnId = some txn ∧ txn.isolation = isolation
  | .release _ lock => s.engine.ssiManager.Absent txnId ∧
      txnId ∉ s.engine.txnManager.activeTxns ∧ s.locks.ReleasedUpTo txnId lock
  | _ => False

/-- The one call under way on the transaction. -/
structure OnlyCall (calls : HashMap ℕ EngineCall) (txnId callId : ℕ) (call : EngineCall) :
    Prop where
  lookup : calls.lookup callId = some call
  isOf : call.txnId = txnId
  unique : ∀ callId' call', calls.lookup callId' = some call' → call'.txnId = txnId →
    callId' = callId

/-- The stages of a transaction whose handle is gone. -/
inductive Closing (s : TxnSystem) (txnId : ℕ) : Prop
  | committing (progress : CommitProgress) (hcommits : s.commits.lookup txnId = some progress)
      (hidle : s.busy txnId = false) (hactive : s.Active txnId)
      (htidy : s.CommitTidy txnId progress)
  | calling (callId : ℕ) (call : EngineCall) (hcommits : s.commits.lookup txnId = none)
      (honly : OnlyCall s.calls txnId callId call) (htidy : s.CallTidy txnId call)
  | closed (hcommits : s.commits.lookup txnId = none) (hidle : s.busy txnId = false)
      (hclean : s.Clean txnId)

section

variable {s s' : TxnSystem} {txnId : ℕ}

/-! ## Steps of others -/

theorem Apart.known (h : Apart txnId s s') : s'.Known txnId ↔ s.Known txnId := by
  unfold Known
  rw [h.txns]

theorem Apart.active (h : Apart txnId s s') : s'.Active txnId ↔ s.Active txnId := by
  unfold Active
  rw [h.txns]

theorem Apart.busy (h : Apart txnId s s') : s'.busy txnId = s.busy txnId := by
  rw [Bool.eq_iff_iff, busy_iff, busy_iff]
  constructor
  · rintro ⟨callId, call, hlookup, heq⟩
    exact ⟨callId, call, (h.calls callId call heq).mp hlookup, heq⟩
  · rintro ⟨callId, call, hlookup, heq⟩
    exact ⟨callId, call, (h.calls callId call heq).mpr hlookup, heq⟩

theorem Apart.opened (h : Apart txnId s s') (hopen : s.Open txnId) : s'.Open txnId where
  commits := h.commits.trans hopen.commits
  writes := fun callId call hlookup heq =>
    hopen.writes callId call ((h.calls callId call heq).mp hlookup) heq
  active := fun hknown => h.active.mpr (hopen.active (h.known.mp hknown))

theorem Apart.commitTidy (h : Apart txnId s s') {progress : CommitProgress}
    (htidy : s.CommitTidy txnId progress) : s'.CommitTidy txnId progress := by
  have hcommitTs : ∀ {P : Transaction → Prop},
      (∃ txn, s.engine.txns.lookup txnId = some txn ∧ P txn) →
        ∃ txn, s'.engine.txns.lookup txnId = some txn ∧ P txn := by
    intro P
    rw [h.txns]
    exact id
  cases progress with
  | drawn commitTs => trivial
  | validated commitTs => exact h.ssi htidy
  | applying todo => exact ⟨h.ssi htidy.1, hcommitTs htidy.2⟩
  | writing ts op todo => exact ⟨h.ssi htidy.1, hcommitTs htidy.2⟩

theorem Apart.callTidy (h : Apart txnId s s') {call : EngineCall}
    (htidy : s.CallTidy txnId call) : s'.CallTidy txnId call := by
  cases call with
  | ssiAbort other isolation =>
      obtain ⟨hmanager, txn, hlookup, hisolation⟩ := htidy
      exact ⟨h.manager hmanager, txn, h.txns.trans hlookup, hisolation⟩
  | release other lock =>
      obtain ⟨hssi, hmanager, hlocks⟩ := htidy
      exact ⟨h.ssi hssi, h.manager hmanager, h.locks lock hlocks⟩
  | _ => exact htidy.elim

theorem Apart.clean (h : Apart txnId s s') (hclean : s.Clean txnId) : s'.Clean txnId where
  locks := h.locks (.done (.ok ())) hclean.locks
  ssi := h.ssi hclean.ssi
  manager := h.manager hclean.manager

/-- What is closed does not open again. -/
theorem Apart.closing (h : Apart txnId s s') (hclosing : s.Closing txnId) : s'.Closing txnId := by
  cases hclosing with
  | committing progress hcommits hidle hactive htidy =>
      exact .committing progress (h.commits.trans hcommits) (h.busy.trans hidle)
        (h.active.mpr hactive) (h.commitTidy htidy)
  | calling callId call hcommits honly htidy =>
      refine .calling callId call (h.commits.trans hcommits) ?_ (h.callTidy htidy)
      refine ⟨(h.calls callId call honly.isOf).mpr honly.lookup, honly.isOf, ?_⟩
      intro callId' call' hlookup heq
      exact honly.unique callId' call' ((h.calls callId' call' heq).mp hlookup) heq
  | closed hcommits hidle hclean =>
      exact .closed (h.commits.trans hcommits) (h.busy.trans hidle) (h.clean hclean)

end

/-! ## Steps of its own -/

section

variable {hashKey : Bytes → UInt64} {s : TxnSystem} {txnId : ℕ}

/-- Nothing makes the step of a commit return early. -/
def CommitReady (s : TxnSystem) (faults : Faults IoCall) (txn : Transaction) :
    CommitProgress → Prop
  | .drawn commitTs => txn.isolation.isReadOnly = false ∧ (txn.isolation = .serializable →
      (s.engine.ssiManager.validateAndCommit txn.id txn.startTs commitTs).1 = .ok ())
  | .validated commitTs => txn.isolation = .serializable →
      s.engine.txnManager.validateSerializable txn commitTs = .ok ()
  | .writing ts op _ => (exec (Lsm.writeAt faults ts op) s.engine.storage).1 = .ok ()
  | .applying _ => True

instance (s : TxnSystem) (faults : Faults IoCall) (txn : Transaction) (progress : CommitProgress) :
    Decidable (s.CommitReady faults txn progress) :=
  match progress with
  | .drawn _ => inferInstanceAs (Decidable (_ ∧ (_ → _)))
  | .validated _ => inferInstanceAs (Decidable (_ → _))
  | .writing _ _ _ => inferInstanceAs (Decidable (_ = _))
  | .applying _ => inferInstanceAs (Decidable True)

theorem not_busy {callId : ℕ} {call : EngineCall} (hidle : s.busy txnId = false)
    (hlookup : s.calls.lookup callId = some call) : call.txnId ≠ txnId := by
  intro heq
  have hbusy := busy_iff.mpr ⟨callId, call, hlookup, heq⟩
  rw [hidle] at hbusy
  contradiction

/-- A new call is the only one of a transaction that had none. -/
theorem onlyCall_insert (hidle : s.busy txnId = false) (call : EngineCall)
    (hcall : call.txnId = txnId) :
    OnlyCall (s.calls.insert s.nextCallId call) txnId s.nextCallId call := by
  refine ⟨AList.lookup_insert _, hcall, ?_⟩
  intro callId' call' hlookup heq
  by_contra hne
  exact not_busy hidle ((AList.lookup_insert_ne hne).symm.trans hlookup) heq

theorem OnlyCall.goOn {callId : ℕ} {call : EngineCall} (h : OnlyCall s.calls txnId callId call)
    (call' : EngineCall) (hcall' : call'.txnId = txnId) :
    OnlyCall (s.calls.insert callId call') txnId callId call' := by
  refine ⟨AList.lookup_insert _, hcall', ?_⟩
  intro callId'' call'' hlookup heq
  by_contra hne
  exact hne (h.unique callId'' call'' ((AList.lookup_insert_ne hne).symm.trans hlookup) heq)

theorem OnlyCall.finish {callId : ℕ} {call : EngineCall}
    (h : OnlyCall s.calls txnId callId call) :
    (s.finish callId).busy txnId = false := by
  rw [← Bool.not_eq_true, busy_iff]
  rintro ⟨callId', call', hlookup, heq⟩
  obtain ⟨hne, hlookup⟩ := lookup_erase_eq_some_iff.mp hlookup
  exact hne (h.unique callId' call' hlookup heq)

theorem committing_eq {txn : Transaction} {progress : CommitProgress}
    (hcommits : s.commits.lookup txnId = some progress)
    (hlookup : s.engine.txns.lookup txnId = some txn) :
    s.committing txnId = some (txn, progress) := by
  rw [committing, hcommits, hlookup]

theorem committing_eq_none (hcommits : s.commits.lookup txnId = none) :
    s.committing txnId = none := by
  rw [committing, hcommits]

/-- A step of the commit goes on to the next stage. -/
theorem Closing.continueCommit (h : s.Locked) (hregistered : s.engine.Registered)
    (hclosing : s.Closing txnId) (order : IterOrder) (faults : Faults IoCall)
    (hready : ∀ txn progress, s.committing txnId = some (txn, progress) →
      s.CommitReady faults txn progress) :
    (s.step hashKey (.continueCommit txnId order faults)).Closing txnId := by
  cases hclosing with
  | calling callId call hcommits honly htidy =>
      rw [step, committing_eq_none hcommits]
      exact .calling callId call hcommits honly htidy
  | closed hcommits hidle hclean =>
      rw [step, committing_eq_none hcommits]
      exact .closed hcommits hidle hclean
  | committing progress hcommits hidle hactive htidy =>
      obtain ⟨txn, hlookup, hstate⟩ := hactive
      obtain rfl := h.ids txnId txn hlookup
      have hcommitting := committing_eq hcommits hlookup
      have hready := hready txn progress hcommitting
      simp only [step, hcommitting]
      cases progress with
      | drawn commitTs =>
          obtain ⟨ssiManager, hexec, habsent⟩ := MvccEngine.exec_commitStep_drawn hregistered hlookup
            faults order hready.1 hready.2
          rw [hexec]
          exact .committing (.validated commitTs) (AList.lookup_insert _) hidle
            ⟨txn, hlookup, hstate⟩ habsent
      | validated commitTs =>
          rw [MvccEngine.exec_commitStep_validated s.engine txn faults order hready]
          have hself : (s.engine.txns.insert txn.id { txn with commitTs := some commitTs }).lookup
              txn.id = some { txn with commitTs := some commitTs } := AList.lookup_insert _
          exact .committing (.applying _) (AList.lookup_insert _) hidle ⟨_, hself, hstate⟩
            ⟨htidy, _, hself, Option.some_ne_none commitTs⟩
      | writing ts op todo =>
          rw [MvccEngine.exec_commitStep_writing s.engine txn order todo hready]
          exact .committing (.applying todo) (AList.lookup_insert _) hidle ⟨txn, hlookup, hstate⟩
            htidy
      | applying todo =>
          obtain ⟨habsent, txn', hlookup', hcommitTs⟩ := htidy
          obtain rfl : txn = txn' := Option.some.inj (hlookup.symm.trans hlookup')
          cases todo with
          | cons op todo =>
              exact .committing (.writing s.engine.storage.nextTs op todo) (AList.lookup_insert _)
                hidle ⟨txn, hlookup, hstate⟩ ⟨habsent, txn, hlookup, hcommitTs⟩
          | nil =>
              -- the commit is done; what is left is to release its locks
              obtain ⟨txnManager, hexec, hnot⟩ := MvccEngine.exec_commitStep_applied hregistered
                faults order hstate hcommitTs
              rw [hexec]
              have honly := onlyCall_insert hidle (.release txn.id LockRequest.releaseAll.call) rfl
              exact .calling s.nextCallId (.release txn.id LockRequest.releaseAll.call)
                (AList.lookup_erase _ _) honly ⟨habsent, hnot, trivial⟩

/-- A step of the clean-up takes out what it is there for. -/
theorem Closing.advance (hregistered : s.engine.Registered) (h : s.Locked)
    (hclosing : s.Closing txnId) {callId : ℕ} {call : EngineCall}
    (hcall : s.calls.lookup callId = some call) (hof : call.txnId = txnId) {choice : LockChoice}
    {s' : TxnSystem} (heffect : AdvanceEffect hashKey s callId choice call s') :
    s'.Closing txnId := by
  cases hclosing with
  | committing progress hcommits hidle hactive htidy => exact absurd hof (not_busy hidle hcall)
  | closed hcommits hidle hclean => exact absurd hof (not_busy hidle hcall)
  -- the transaction has one call under way, which is this one
  | calling callId' call' hcommits honly htidy =>
      obtain rfl := honly.unique callId call hcall hof
      obtain rfl : call = call' := Option.some.inj (hcall.symm.trans honly.lookup)
      cases heffect with
      | @aborts other isolation =>
          obtain rfl : other = txnId := hof
          obtain ⟨hmanager, txn, hlookup, rfl⟩ := htidy
          obtain rfl := h.ids other txn hlookup
          have hmanager' : txn.id ∉
              (s.engine.ssiAbort txn.id txn.isolation).txnManager.activeTxns := by
            unfold MvccEngine.ssiAbort
            split <;> exact hmanager
          have honly' := honly.goOn (.release txn.id LockRequest.releaseAll.call) rfl
          exact .calling callId (.release txn.id LockRequest.releaseAll.call) hcommits honly'
            ⟨MvccEngine.absent_ssiAbort hregistered hlookup, hmanager', trivial⟩
      | @released other lock result hresult =>
          obtain rfl : other = txnId := hof
          obtain ⟨hssi, hmanager, hlocks⟩ := htidy
          -- the release is over, so nothing is left that it was to take out
          have hgone : s.locks.Gone other := by
            cases lock with
            | done result => exact hlocks
            | _ => contradiction
          exact .closed hcommits honly.finish ⟨hgone, hssi, hmanager⟩
      | @releases other lock =>
          obtain rfl : other = txnId := hof
          obtain ⟨hssi, hmanager, hlocks⟩ := htidy
          have honly' := honly.goOn (.release other (s.locks.step other choice lock).2) rfl
          exact .calling callId (.release other (s.locks.step other choice lock).2) hcommits honly'
            ⟨hssi, hmanager, LockTable.releasedUpTo_own hlocks choice⟩
      | _ => exact htidy.elim

/-- The handle goes into a commit. -/
theorem Open.commit (hopen : s.Open txnId) (hknown : s.Known txnId)
    (hidle : s.busy txnId = false) (physical : ℕ) :
    (s.step hashKey (.commit txnId physical)).Closing txnId := by
  obtain ⟨txn, hlookup⟩ := hknown
  have hunlocked : s.unlocked txnId = some txn := by
    rw [unlocked, hopen.commits]
    exact hlookup
  simp only [step, hunlocked]
  exact .committing (.drawn _) (AList.lookup_insert _) hidle (hopen.active ⟨txn, hlookup⟩) trivial

/-- The handle goes into an abort. -/
theorem Open.abort (hregistered : s.engine.Registered) (h : s.Locked) (hopen : s.Open txnId)
    (hknown : s.Known txnId) (hidle : s.busy txnId = false) :
    (s.step hashKey (.abort txnId)).Closing txnId := by
  obtain ⟨txn, hlookup⟩ := hknown
  obtain rfl := h.ids txnId txn hlookup
  have hunlocked : s.unlocked txn.id = some txn := by
    rw [unlocked, hopen.commits]
    exact hlookup
  simp only [step, hunlocked]
  have hself : (s.engine.managerAbort txn).txns.lookup txn.id =
      some { txn with state := .aborted } := AList.lookup_insert _
  exact .calling s.nextCallId (.ssiAbort txn.id txn.isolation) hopen.commits
    (onlyCall_insert hidle _ rfl)
    ⟨MvccEngine.not_mem_managerAbort hregistered txn, _, hself, rfl⟩

/-! ## Calls on an open handle -/

theorem Open.withCalls (hopen : s.Open txnId) {calls : HashMap ℕ EngineCall} (nextCallId : ℕ)
    (hcalls : ∀ callId call, calls.lookup callId = some call → call.Writes ∨
      s.calls.lookup callId = some call) : { s with calls, nextCallId }.Open txnId := by
  refine ⟨hopen.commits, fun callId call hlookup heq => ?_, hopen.active⟩
  rcases hcalls callId call hlookup with hwrites | hold
  · exact hwrites
  · exact hopen.writes callId call hold heq

theorem Open.insertCall (hopen : s.Open txnId) (call : EngineCall) (hwrites : call.Writes)
    (callId nextCallId : ℕ) :
    { s with calls := s.calls.insert callId call, nextCallId }.Open txnId := by
  apply hopen.withCalls
  intro callId' call' hlookup
  by_cases heq : callId' = callId
  · rw [heq, AList.lookup_insert] at hlookup
    exact Or.inl (Option.some.inj hlookup ▸ hwrites)
  · exact Or.inr ((AList.lookup_insert_ne heq).symm.trans hlookup)

theorem Open.finish (hopen : s.Open txnId) (callId : ℕ) : (s.finish callId).Open txnId := by
  apply hopen.withCalls s.nextCallId
  exact fun callId' call' hlookup => Or.inr (lookup_of_erase hlookup)

theorem Open.withLocks (hopen : s.Open txnId) (locks : LockTable) : { s with locks }.Open txnId :=
  ⟨hopen.commits, hopen.writes, hopen.active⟩

/-- A transaction that is put back as active. -/
theorem Open.withTxn (hopen : s.Open txnId) {engine : MvccEngine} {txn : Transaction}
    (hself : engine.txns.lookup txnId = some txn) (hstate : txn.state = .active) :
    { s with engine }.Open txnId :=
  ⟨hopen.commits, hopen.writes, fun _ => ⟨txn, hself, hstate⟩⟩

theorem Open.withTxns (hopen : s.Open txnId) {engine : MvccEngine}
    (htxns : engine.txns = s.engine.txns) : { s with engine }.Open txnId := by
  refine ⟨hopen.commits, hopen.writes, ?_⟩
  rintro ⟨txn, hlookup⟩
  obtain ⟨txn', hlookup', hstate⟩ := hopen.active ⟨txn, htxns ▸ hlookup⟩
  exact ⟨txn', htxns ▸ hlookup', hstate⟩

theorem Open.state (hopen : s.Open txnId) {txn : Transaction}
    (hlookup : s.engine.txns.lookup txnId = some txn) : txn.state = .active := by
  obtain ⟨txn', hlookup', hstate⟩ := hopen.active ⟨txn, hlookup⟩
  obtain rfl : txn = txn' := Option.some.inj (hlookup.symm.trans hlookup')
  exact hstate

theorem Open.get (h : s.Locked) (hopen : s.Open txnId) {txn : Transaction}
    (hlookup : s.engine.txns.lookup txnId = some txn) (key : Bytes) :
    { s with engine := (s.engine.get hashKey txn key).2 }.Open txnId := by
  unfold MvccEngine.get
  split
  · exact hopen
  · have hrecord : (txn.recordRead key).id = txn.id ∧
        (txn.recordRead key).state = txn.state := by
      unfold Transaction.recordRead
      split <;> exact ⟨rfl, rfl⟩
    obtain rfl : (txn.recordRead key).id = txnId := hrecord.1.trans (h.ids txnId txn hlookup)
    exact hopen.withTxn (AList.lookup_insert _) (hrecord.2.trans (hopen.state hlookup))

/-- A step of `put` or `delete`. -/
theorem Open.advance (h : s.Locked) (hopen : s.Open txnId) {callId : ℕ} {call : EngineCall}
    (hcall : s.calls.lookup callId = some call) (hof : call.txnId = txnId) {choice : LockChoice}
    {s' : TxnSystem} (heffect : AdvanceEffect hashKey s callId choice call s') :
    s'.Open txnId := by
  have hwrites := hopen.writes callId call hcall hof
  cases heffect with
  | granted => exact hopen.insertCall (.record _ _ _) trivial callId s.nextCallId
  | refused => exact hopen.finish callId
  | @locks other isolation op lock =>
      exact (hopen.withLocks (s.locks.step other choice lock).1).insertCall
        (.write other isolation op (s.locks.step other choice lock).2) trivial callId s.nextCallId
  | @records other isolation op =>
      have htxns : (s.engine.recordWrite hashKey other isolation op.key).txns = s.engine.txns := by
        unfold MvccEngine.recordWrite
        split <;> rfl
      exact (hopen.withTxns htxns).insertCall (.store other op) trivial callId s.nextCallId
  | blocked => exact hopen
  | @stores other op txn hunlocked =>
      have hlookup := lookup_of_unlocked hunlocked
      obtain rfl := h.ids other txn hlookup
      obtain rfl : txn.id = txnId := hof
      have hself : (s.engine.storeWrite txn op).txns.lookup txn.id =
          some { txn with writeSet := txn.writeSet.apply op } := AList.lookup_insert _
      have hstate := hopen.state hlookup
      exact (hopen.withTxn hself hstate).finish callId
  | aborts => exact hwrites.elim
  | released => exact hwrites.elim
  | releases => exact hwrites.elim

/-- An open transaction stays open in a step that does not close it. -/
theorem Open.step (h : s.Locked) (hopen : s.Open txnId) {action : TxnStep}
    (hactor : s.actor action = some txnId) (hcommit : ∀ physical, action ≠ .commit txnId physical)
    (habort : action ≠ .abort txnId) : (s.step hashKey action).Open txnId := by
  have heffect := s.step_effect hashKey action
  generalize s.step hashKey action = s' at heffect ⊢
  cases heffect with
  | nothing => exact hopen
  | draws => contradiction
  | @registers other startTs isolation =>
      obtain rfl : other = txnId := Option.some.inj hactor
      have hself : (s.engine.register isolation other startTs).txns.lookup other =
          some (Transaction.new other startTs isolation) := AList.lookup_insert _
      exact ⟨hopen.commits, hopen.writes, fun _ => ⟨_, hself, rfl⟩⟩
  | starts => exact ⟨hopen.commits, hopen.writes, hopen.active⟩
  | @gets other txn hunlocked key =>
      obtain rfl : other = txnId := Option.some.inj hactor
      exact hopen.get h (lookup_of_unlocked hunlocked) key
  | @writes other txn _ _ op =>
      exact hopen.insertCall (.write other txn.isolation op _) trivial s.nextCallId _
  | @commits other _ _ physical =>
      obtain rfl : other = txnId := Option.some.inj hactor
      exact absurd rfl (hcommit physical)
  | @proceeds other txn progress order faults hcommitting =>
      obtain rfl : other = txnId := Option.some.inj hactor
      rw [committing_eq_none hopen.commits] at hcommitting
      contradiction
  | aborts => exact absurd (Option.some.inj hactor ▸ rfl) habort
  | advances hcall hadvance =>
      rw [actor, hcall, Option.map_some] at hactor
      exact hopen.advance h hcall (Option.some.inj hactor) hadvance
  | onStorage => contradiction

/-! ## What holds of all transactions -/

theorem CallsFresh.goOn (h : s.CallsFresh) {callId : ℕ} (hlt : callId < s.nextCallId)
    (call : EngineCall) : (s.goOn callId call).CallsFresh := by
  intro callId' call' hlookup
  by_cases heq : callId' = callId
  · exact heq ▸ hlt
  · exact h callId' call' ((AList.lookup_insert_ne heq).symm.trans hlookup)

theorem CallsFresh.invoke (h : s.CallsFresh) (call : EngineCall) : (s.invoke call).CallsFresh := by
  intro callId' call' hlookup
  by_cases heq : callId' = s.nextCallId
  · exact heq ▸ Nat.lt_succ_self _
  · exact (h callId' call' ((AList.lookup_insert_ne heq).symm.trans hlookup)).trans
      (Nat.lt_succ_self _)

theorem CallsFresh.finish (h : s.CallsFresh) (callId : ℕ) : (s.finish callId).CallsFresh := by
  exact fun callId' call' hlookup => h callId' call' (lookup_of_erase hlookup)

theorem CallsFresh.proceed (h : s.CallsFresh)
    (result : Except Error (Option CommitProgress) × MvccEngine) :
    (s.proceed txnId result).CallsFresh := by
  obtain ⟨result, engine⟩ := result
  cases result with
  | error e => exact h
  | ok progress =>
      cases progress with
      | some progress => exact h
      | none => exact CallsFresh.invoke (s := { s with engine, commits := s.commits.erase txnId }) h _

theorem CallsFresh.step (h : s.CallsFresh) (action : TxnStep) :
    (s.step hashKey action).CallsFresh := by
  have hwith : ∀ {engine locks callId call}, callId < s.nextCallId →
      (TxnSystem.goOn { s with engine, locks } callId call).CallsFresh := by
    intro engine locks callId call hlt
    exact CallsFresh.goOn (s := { s with engine, locks }) h hlt call
  have heffect := s.step_effect hashKey action
  generalize s.step hashKey action = s' at heffect ⊢
  cases heffect with
  | nothing => exact h
  | draws => exact h
  | registers => exact h
  | starts => exact h
  | gets => exact h
  | writes => exact h.invoke _
  | commits => exact h
  | proceeds => exact h.proceed _
  | @aborts other txn =>
      exact CallsFresh.invoke (s := { s with engine := s.engine.managerAbort txn }) h _
  | @advances callId choice call s' hcall hadvance =>
      have hlt := h callId call hcall
      cases hadvance with
      | granted => exact h.goOn hlt _
      | refused => exact h.finish callId
      | locks => exact hwith hlt
      | records => exact hwith hlt
      | blocked => exact h
      | stores => exact h.finish callId
      | aborts => exact hwith hlt
      | released => exact h.finish callId
      | releases => exact hwith hlt
  | onStorage => exact h

/-- A step is taken on behalf of a transaction that has begun, or a transaction begins. -/
theorem serves_step (h : s.Locked) (action : TxnStep) :
    (∃ txnId, MvccEngine.Serves txnId s.engine (s.step hashKey action).engine) ∨
      ∃ isolation txnId startTs, s.engine.txns.lookup txnId = none ∧
        (s.step hashKey action).engine = s.engine.register isolation txnId startTs := by
  -- a step that leaves the books alone is on behalf of any transaction
  have hnothing : ∀ {engine : MvccEngine}, engine.txns = s.engine.txns →
      engine.ssiManager = s.engine.ssiManager → engine.txnManager = s.engine.txnManager →
        ∃ txnId, MvccEngine.Serves txnId s.engine engine := by
    intro engine htxns hssi hmanager
    refine ⟨0, fun _ _ => by rw [htxns], ?_, Or.inl (by rw [hmanager])⟩
    rw [hssi]
    exact SSIManager.Serves.refl _ _
  have hsame : ∃ txnId, MvccEngine.Serves txnId s.engine s.engine := hnothing rfl rfl rfl
  have heffect := s.step_effect hashKey action
  generalize s.step hashKey action = s' at heffect ⊢
  cases heffect with
  | nothing => exact Or.inl hsame
  | draws => exact Or.inl (hnothing rfl rfl rfl)
  | @registers other startTs isolation lock _ _ hstarting =>
      obtain ⟨-, hunknown, -⟩ := h.starting other isolation startTs lock hstarting
      refine Or.inr ⟨isolation, other, startTs, ?_, rfl⟩
      by_contra hsome
      exact hunknown (Option.ne_none_iff_exists'.mp hsome)
  | starts => exact Or.inl hsame
  | @gets other txn _ key => exact Or.inl ⟨txn.id, MvccEngine.serves_get hashKey s.engine txn key⟩
  | writes => exact Or.inl hsame
  | commits => exact Or.inl (hnothing rfl rfl rfl)
  | @proceeds other txn progress order faults =>
      rw [engine_proceed]
      exact Or.inl ⟨txn.id, MvccEngine.serves_commitStep faults order s.engine txn progress⟩
  | @aborts other txn => exact Or.inl ⟨txn.id, MvccEngine.serves_managerAbort s.engine txn⟩
  | advances _ hadvance =>
      left
      cases hadvance with
      | granted => exact hsame
      | refused => exact hsame
      | locks => exact hsame
      | @records other isolation op =>
          exact ⟨other, MvccEngine.serves_recordWrite hashKey s.engine other isolation op.key⟩
      | blocked => exact hsame
      | @stores other op txn => exact ⟨txn.id, MvccEngine.serves_storeWrite s.engine txn op⟩
      | @aborts other isolation =>
          exact ⟨other, MvccEngine.serves_ssiAbort s.engine other isolation⟩
      | released => exact hsame
      | releases => exact hsame
  | onStorage => exact Or.inl (hnothing rfl rfl rfl)

theorem registered_step (h : s.Locked) (hregistered : s.engine.Registered) (action : TxnStep) :
    (s.step hashKey action).engine.Registered := by
  rcases serves_step h action with ⟨txnId, hserves⟩ | ⟨isolation, txnId, startTs, hnone, heq⟩
  · exact hregistered.serves hserves (evolves_step hashKey h action)
  · rw [heq]
    exact hregistered.register hnone isolation startTs

end

end TxnSystem
end Crabstash

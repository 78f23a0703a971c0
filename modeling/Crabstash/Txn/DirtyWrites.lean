import Crabstash.Txn.TxnSystem

/-!
# No dirty writes

The write sets of two active transactions have no key in common.  What carries this is that
an active transaction holds the lock of every key in its write set in mode `X`, and so does
one that is about to put the key there.

Two things could break it.  The locks of a transaction are released in steps that others see
one by one; but the release begins when the transaction is no longer active, and it never
becomes active again.  And a call of a transaction that has ended can still be under way,
get a lock after the release, and write to the write set; but this is the write set of a
transaction that is not active.
-/

namespace Crabstash

open Crabstash.Action

namespace MvccEngine

/-- What a step of a commit does to the transactions: the write set stays, and an ended
transaction is not active again. -/
structure Keeps (txn : Transaction) (s s' : MvccEngine) : Prop where
  nextTxnId : s'.nextTxnId = s.nextTxnId
  txns : s'.txns = s.txns ∨
    ∃ txn', txn'.id = txn.id ∧ txn'.isolation = txn.isolation ∧ txn'.writeSet = txn.writeSet ∧
      (txn'.state = .active → txn.state = .active) ∧ s'.txns = s.txns.insert txn.id txn'

theorem Keeps.refl (txn : Transaction) (s : MvccEngine) : Keeps txn s s := ⟨rfl, Or.inl rfl⟩

theorem keeps_get (hashKey : Bytes → UInt64) (s : MvccEngine) (txn : Transaction) (key : Bytes) :
    Keeps txn s (s.get hashKey txn key).2 := by
  unfold get
  split
  · exact Keeps.refl txn s
  · have hrecord : (txn.recordRead key).id = txn.id ∧
        (txn.recordRead key).isolation = txn.isolation ∧
        (txn.recordRead key).writeSet = txn.writeSet ∧
        (txn.recordRead key).state = txn.state := by
      unfold Transaction.recordRead
      split <;> exact ⟨rfl, rfl, rfl, rfl⟩
    obtain ⟨hid, hisolation, hwriteSet, hstate⟩ := hrecord
    refine ⟨rfl, Or.inr ⟨txn.recordRead key, hid, hisolation, hwriteSet, fun h => hstate ▸ h, ?_⟩⟩
    rw [← hid]
    rfl

theorem keeps_managerCommit (s : MvccEngine) (txn : Transaction) :
    Keeps txn s (exec (managerCommit txn) s).2 := by
  rw [exec_managerCommit]
  split
  · next txnManager txn' hcommitted =>
      obtain ⟨_, _, rfl⟩ := TransactionManager.commit_ok hcommitted
      refine ⟨rfl, Or.inr ⟨{ txn with state := .committed }, rfl, rfl, rfl, ?_, rfl⟩⟩
      intro hactive
      contradiction
  · exact Keeps.refl txn s

theorem keeps_managerAbort (s : MvccEngine) (txn : Transaction) :
    Keeps txn s (s.managerAbort txn) := by
  refine ⟨rfl, Or.inr ⟨{ txn with state := .aborted }, rfl, rfl, rfl, ?_, rfl⟩⟩
  intro hactive
  contradiction

theorem keeps_commitReadOnly (s : MvccEngine) (txn : Transaction) :
    Keeps txn s (exec (commitReadOnly txn) s).2 := by
  have hcommit := keeps_managerCommit s txn
  obtain hsame | ⟨-, htold⟩ := commitReadOnly_cases s txn
  · rw [hsame]
    exact hcommit
  · rw [htold]
    exact ⟨hcommit.nextTxnId, hcommit.txns⟩

theorem keeps_commitStep (faults : Faults IoCall) (order : IterOrder) (s : MvccEngine)
    (txn : Transaction) (progress : CommitProgress) :
    Keeps txn s (exec (commitStep faults order txn progress) s).2 := by
  have hpart := commitStep_part faults order s txn progress
  generalize exec (commitStep faults order txn progress) s = result at hpart ⊢
  cases hpart with
  | readOnly => exact keeps_commitReadOnly s txn
  | validates commitTs hserializable =>
      rw [exec_validateSsi s commitTs hserializable]
      exact ⟨rfl, Or.inl rfl⟩
  | prepares commitTs =>
      exact ⟨rfl, Or.inr ⟨{ txn with commitTs := some commitTs }, rfl, rfl, rfl, id, rfl⟩⟩
  | finishes => exact keeps_managerCommit s txn
  | _ => exact ⟨rfl, Or.inl rfl⟩

/-- The transaction is committed. -/
structure Commits (txn : Transaction) (s s' : MvccEngine) : Prop where
  active : txn.state = .active
  txns : s'.txns = s.txns.insert txn.id { txn with state := .committed }

theorem commits_managerCommit {s : MvccEngine} {txn : Transaction}
    (hok : (exec (managerCommit txn) s).1 = .ok ()) : Commits txn s (exec (managerCommit txn) s).2 := by
  rw [exec_managerCommit] at hok ⊢
  cases hcommitted : s.txnManager.commit txn with
  | error e =>
      rw [hcommitted] at hok
      contradiction
  | ok result =>
      obtain ⟨txnManager, txn'⟩ := result
      obtain ⟨hactive, _, rfl⟩ := TransactionManager.commit_ok hcommitted
      refine ⟨?_, rfl⟩
      simpa [Transaction.isActive] using hactive

theorem commits_commitReadOnly {s : MvccEngine} {txn : Transaction}
    (hok : (exec (commitReadOnly txn) s).1 = .ok ()) :
    Commits txn s (exec (commitReadOnly txn) s).2 := by
  obtain hsame | ⟨hcommitted, htold⟩ := commitReadOnly_cases s txn
  · rw [hsame] at hok ⊢
    exact commits_managerCommit hok
  · have hcommits := commits_managerCommit hcommitted
    rw [htold]
    exact ⟨hcommits.active, hcommits.txns⟩

/-- A step that goes on does not return. -/
theorem map_some_ne {α : Type} (result : Except Error α) (f : α → CommitProgress) :
    result.map (fun a => some (f a)) ≠ .ok none := by
  cases result with
  | ok a => simp [Except.map]
  | error e => simp [Except.map]

theorem ok_of_map_none {result : Except Error Unit}
    (h : result.map (fun _ => (none : Option CommitProgress)) = .ok none) : result = .ok () := by
  cases result with
  | ok _ => rfl
  | error e => contradiction

/-- A commit gets through in two ways: its transaction only reads, or all of it has been
applied. -/
theorem finished_cases {faults : Faults IoCall} {order : IterOrder} {s : MvccEngine}
    {txn : Transaction} {progress : CommitProgress}
    (hresult : (exec (commitStep faults order txn progress) s).1 = .ok none) :
    (txn.isolation.isReadOnly = true ∧ (exec (commitReadOnly txn) s).1 = .ok () ∧
      (exec (commitStep faults order txn progress) s).2 = (exec (commitReadOnly txn) s).2) ∨
    (progress = .applying [] ∧ (exec (managerCommit txn) s).1 = .ok () ∧
      (exec (commitStep faults order txn progress) s).2 = (exec (managerCommit txn) s).2) := by
  have hpart := commitStep_part faults order s txn progress
  generalize exec (commitStep faults order txn progress) s = result at hpart hresult ⊢
  cases hpart with
  | readOnly commitTs hreadOnly => exact Or.inl ⟨hreadOnly, ok_of_map_none hresult, rfl⟩
  | finishes => exact Or.inr ⟨rfl, ok_of_map_none hresult, rfl⟩
  | validates => exact absurd hresult (map_some_ne _ _)
  | writes => exact absurd hresult (map_some_ne _ _)
  | _ => cases hresult

/-- A commit that is through has committed the transaction. -/
theorem commits_commitStep {faults : Faults IoCall} {order : IterOrder} {s : MvccEngine}
    {txn : Transaction} {progress : CommitProgress}
    (hresult : (exec (commitStep faults order txn progress) s).1 = .ok none) :
    Commits txn s (exec (commitStep faults order txn progress) s).2 := by
  obtain ⟨_, hok, hstate⟩ | ⟨_, hok, hstate⟩ := finished_cases hresult
  · rw [hstate]
    exact commits_commitReadOnly hok
  · rw [hstate]
    exact commits_managerCommit hok

/-- What can become of the transactions in a step: `stored` says what comes into which
write set, an ended transaction is not active again, and a new one has an empty write set. -/
structure Evolves (s s' : MvccEngine) (stored : ℕ → Bytes → Prop) : Prop where
  known : ∀ txnId txn, s.txns.lookup txnId = some txn →
    ∃ txn', s'.txns.lookup txnId = some txn' ∧ txn'.id = txn.id ∧
      txn'.isolation = txn.isolation ∧ (txn'.state = .active → txn.state = .active) ∧
      ∀ key ∈ txn'.writeSet.writeKeys, key ∈ txn.writeSet.writeKeys ∨ stored txnId key
  new : ∀ txnId txn', s'.txns.lookup txnId = some txn' → s.txns.lookup txnId = none →
    txn'.id = txnId ∧ txn'.writeSet = WriteSet.new

section

variable {s s' : MvccEngine} {stored : ℕ → Bytes → Prop}

theorem evolves_of_txns_eq (htxns : s'.txns = s.txns) : Evolves s s' stored := by
  refine ⟨?_, ?_⟩
  · exact fun txnId txn hlookup => ⟨txn, htxns ▸ hlookup, rfl, rfl, id, fun _ => Or.inl⟩
  · intro txnId txn' hlookup hnone
    rw [htxns, hnone] at hlookup
    contradiction

theorem evolves_insert {txn txn' : Transaction} (hlookup : s.txns.lookup txn.id = some txn)
    (htxns : s'.txns = s.txns.insert txn.id txn') (hid : txn'.id = txn.id)
    (hisolation : txn'.isolation = txn.isolation)
    (hactive : txn'.state = .active → txn.state = .active)
    (hkeys : ∀ key ∈ txn'.writeSet.writeKeys, key ∈ txn.writeSet.writeKeys ∨ stored txn.id key) :
    Evolves s s' stored := by
  refine ⟨?_, ?_⟩
  · intro txnId txn₀ hlookup₀
    by_cases heq : txnId = txn.id
    · rw [heq, hlookup] at hlookup₀
      obtain rfl := Option.some.inj hlookup₀
      rw [heq, htxns, AList.lookup_insert]
      exact ⟨txn', rfl, hid, hisolation, hactive, hkeys⟩
    · rw [htxns, AList.lookup_insert_ne heq]
      exact ⟨txn₀, hlookup₀, rfl, rfl, id, fun _ => Or.inl⟩
  · intro txnId txn₀ hlookup₀ hnone
    by_cases heq : txnId = txn.id
    · rw [heq, hlookup] at hnone
      contradiction
    · rw [htxns, AList.lookup_insert_ne heq, hnone] at hlookup₀
      contradiction

theorem Keeps.evolves {txn : Transaction} (h : Keeps txn s s')
    (hlookup : s.txns.lookup txn.id = some txn) : Evolves s s' stored := by
  obtain ⟨-, htxns | ⟨txn', hid, hisolation, hwriteSet, hactive, htxns⟩⟩ := h
  · exact evolves_of_txns_eq htxns
  · refine evolves_insert hlookup htxns hid hisolation hactive fun key hkey => ?_
    exact Or.inl (hwriteSet ▸ hkey)

theorem evolves_storeWrite {txn : Transaction} (hlookup : s.txns.lookup txn.id = some txn)
    (op : BatchOperation) :
    Evolves s (s.storeWrite txn op) fun txnId key => txnId = txn.id ∧ key = op.key := by
  refine evolves_insert hlookup rfl rfl rfl id fun key hkey => ?_
  rcases WriteSet.mem_writeKeys_apply.mp hkey with heq | hkey
  · exact Or.inr ⟨rfl, heq⟩
  · exact Or.inl hkey

theorem evolves_register {txnId : ℕ} (hnone : s.txns.lookup txnId = none)
    (isolation : IsolationLevel) (startTs : ℕ) :
    Evolves s (s.register isolation txnId startTs) stored := by
  have hself : (s.register isolation txnId startTs).txns.lookup txnId =
      some (Transaction.new txnId startTs isolation) := AList.lookup_insert _
  have hother : ∀ txnId', txnId' ≠ txnId →
      (s.register isolation txnId startTs).txns.lookup txnId' = s.txns.lookup txnId' :=
    fun _ hne => AList.lookup_insert_ne hne
  refine ⟨?_, ?_⟩
  · intro txnId' txn hlookup
    have hne : txnId' ≠ txnId := by
      rintro rfl
      rw [hnone] at hlookup
      contradiction
    exact ⟨txn, (hother txnId' hne).trans hlookup, rfl, rfl, id, fun _ => Or.inl⟩
  · intro txnId' txn' hlookup hnone'
    by_cases heq : txnId' = txnId
    · rw [heq, hself] at hlookup
      rw [← Option.some.inj hlookup, heq]
      exact ⟨rfl, rfl⟩
    · rw [hother txnId' heq, hnone'] at hlookup
      contradiction

end

end MvccEngine

namespace TxnSystem

/-! ## The invariant -/

/-- The transaction has begun. -/
def Known (s : TxnSystem) (txnId : ℕ) : Prop := ∃ txn, s.engine.txns.lookup txnId = some txn

/-- The transaction has begun and not ended. -/
def Active (s : TxnSystem) (txnId : ℕ) : Prop :=
  ∃ txn, s.engine.txns.lookup txnId = some txn ∧ txn.state = .active

/-- The transaction has committed or aborted. -/
def Ended (s : TxnSystem) (txnId : ℕ) : Prop :=
  ∃ txn, s.engine.txns.lookup txnId = some txn ∧ txn.state ≠ .active

/-- The transaction has the key for itself. -/
def Holding (s : TxnSystem) (txnId : ℕ) (key : Bytes) : Prop :=
  s.locks.modeOf key txnId = some .x

/-- What is known of a call under way: past its lock it has the lock, if its transaction is
active; and locks are released only for a transaction that has ended. -/
def CallOk (s : TxnSystem) : EngineCall → Prop
  | .write txnId _ op lock =>
      s.Known txnId ∧ lock.LocksKey op.key ∧
        (lock.Granted → s.Active txnId → s.Holding txnId op.key)
  | .record txnId _ op => s.Known txnId ∧ (s.Active txnId → s.Holding txnId op.key)
  | .store txnId op => s.Known txnId ∧ (s.Active txnId → s.Holding txnId op.key)
  | .ssiAbort txnId _ => s.Ended txnId
  | .release txnId lock => s.Ended txnId ∧ lock.Releases

/-- What a run keeps: every lock on a key is exclusive and has one holder, and an active
transaction holds the keys it has written. -/
structure Locked (s : TxnSystem) : Prop where
  onlyX : s.locks.OnlyX
  single : s.locks.Single
  ids : ∀ txnId txn, s.engine.txns.lookup txnId = some txn → txn.id = txnId
  fresh : ∀ txnId, s.engine.nextTxnId ≤ txnId → ¬ s.Known txnId
  held : ∀ txnId txn, s.engine.txns.lookup txnId = some txn → txn.state = .active →
    ∀ key ∈ txn.writeSet.writeKeys, s.Holding txnId key
  starting : ∀ txnId isolation startTs lock,
    s.starting.lookup txnId = some (isolation, startTs, lock) →
      txnId < s.engine.nextTxnId ∧ ¬ s.Known txnId ∧ lock.Registers
  calls : ∀ callId call, s.calls.lookup callId = some call → s.CallOk call

/-- What no step takes away. -/
structure Follows (s s' : TxnSystem) : Prop where
  known : ∀ {txnId}, s.Known txnId → s'.Known txnId
  active : ∀ {txnId}, s.Known txnId → s'.Active txnId → s.Active txnId
  ended : ∀ {txnId}, s.Ended txnId → s'.Ended txnId
  holding : ∀ {txnId key}, s.Active txnId → s.Holding txnId key → s'.Holding txnId key

theorem CallOk.mono {s s' : TxnSystem} (hfollows : Follows s s') {call : EngineCall}
    (h : s.CallOk call) : s'.CallOk call := by
  cases call with
  | write txnId isolation op lock =>
      obtain ⟨hknown, hlocks, hheld⟩ := h
      refine ⟨hfollows.known hknown, hlocks, fun hgranted hactive => ?_⟩
      have hactive := hfollows.active hknown hactive
      exact hfollows.holding hactive (hheld hgranted hactive)
  | record txnId isolation op =>
      obtain ⟨hknown, hheld⟩ := h
      refine ⟨hfollows.known hknown, fun hactive => ?_⟩
      have hactive := hfollows.active hknown hactive
      exact hfollows.holding hactive (hheld hactive)
  | store txnId op =>
      obtain ⟨hknown, hheld⟩ := h
      refine ⟨hfollows.known hknown, fun hactive => ?_⟩
      have hactive := hfollows.active hknown hactive
      exact hfollows.holding hactive (hheld hactive)
  | ssiAbort txnId isolation => exact hfollows.ended h
  | release txnId lock => exact ⟨hfollows.ended h.1, h.2⟩

theorem locked_init (storage : Lsm) (config : LockConfig) : (init storage config).Locked where
  onlyX := LockTable.onlyX_new config
  single := LockTable.single_new config
  ids := by
    intro txnId txn hlookup
    contradiction
  fresh := by
    rintro txnId - ⟨txn, hlookup⟩
    contradiction
  held := by
    intro txnId txn hlookup
    contradiction
  starting := by
    intro txnId isolation startTs lock hlookup
    contradiction
  calls := by
    intro callId call hlookup
    contradiction

/-! ## What a step may change -/

section

variable {s : TxnSystem}

/-- The calls under way change. -/
theorem Locked.withCalls (h : s.Locked) {calls : HashMap ℕ EngineCall} (nextCallId : ℕ)
    (hcalls : ∀ callId call, calls.lookup callId = some call → s.CallOk call) :
    { s with calls, nextCallId }.Locked :=
  ⟨h.onlyX, h.single, h.ids, h.fresh, h.held, h.starting, hcalls⟩

theorem Locked.insertCall (h : s.Locked) {call : EngineCall} (hcall : s.CallOk call)
    (callId nextCallId : ℕ) :
    { s with calls := s.calls.insert callId call, nextCallId }.Locked := by
  apply h.withCalls
  intro callId' call' hlookup
  by_cases heq : callId' = callId
  · rw [heq, AList.lookup_insert] at hlookup
    exact Option.some.inj hlookup ▸ hcall
  · rw [AList.lookup_insert_ne heq] at hlookup
    exact h.calls callId' call' hlookup

theorem Locked.invoke (h : s.Locked) {call : EngineCall} (hcall : s.CallOk call) :
    (s.invoke call).Locked := h.insertCall hcall _ _

theorem Locked.goOn (h : s.Locked) {call : EngineCall} (hcall : s.CallOk call) (callId : ℕ) :
    (s.goOn callId call).Locked := h.insertCall hcall _ _

theorem Locked.finish (h : s.Locked) (callId : ℕ) : (s.finish callId).Locked := by
  apply h.withCalls s.nextCallId
  exact fun callId' call' hlookup => h.calls callId' call' (lookup_of_erase hlookup)

theorem Locked.withCommits (h : s.Locked) (commits : HashMap ℕ CommitProgress) :
    { s with commits }.Locked :=
  ⟨h.onlyX, h.single, h.ids, h.fresh, h.held, h.starting, h.calls⟩

theorem not_active_of_ended {txnId : ℕ} (hended : s.Ended txnId) : ¬ s.Active txnId := by
  rintro ⟨txn, hlookup, hactive⟩
  obtain ⟨txn', hlookup', hnot⟩ := hended
  rw [hlookup] at hlookup'
  exact hnot (Option.some.inj hlookup' ▸ hactive)

/-- The change of the locks that a call may make. -/
def Safe (s : TxnSystem) (txnId : ℕ) : LockEffect → Prop
  | .grant _ mode => mode = .x
  | .release _ => s.Ended txnId
  | _ => True

/-- A call takes a step in the lock table. -/
theorem Locked.lockStep (h : s.Locked) {txnId : ℕ} {choice : LockChoice} {lock : LockCall}
    (hsafe : s.Safe txnId (s.locks.effect txnId choice lock)) :
    { s with locks := (s.locks.step txnId choice lock).1 }.Locked := by
  have hgrant : ∀ key mode, s.locks.effect txnId choice lock = .grant key mode → mode = .x := by
    intro key mode heq
    rw [heq] at hsafe
    exact hsafe
  have hfollows : Follows s { s with locks := (s.locks.step txnId choice lock).1 } := by
    refine ⟨id, fun _ => id, id, ?_⟩
    intro txnId' key hactive hholding
    show (s.locks.step txnId choice lock).1.modeOf key txnId' = some .x
    rw [LockTable.modeOf_step]
    split
    · next key' mode heq =>
        rw [hgrant key' mode heq, hholding, ite_self]
    · next key' heq =>
        rw [heq] at hsafe
        split
        · next hsame => exact absurd (hsame.2 ▸ hactive) (not_active_of_ended hsafe)
        · exact hholding
    · exact hholding
  refine ⟨h.onlyX.step hgrant, h.single.step hgrant, h.ids, h.fresh, ?_, h.starting, ?_⟩
  · intro txnId' txn hlookup hactive key hkey
    exact hfollows.holding ⟨txn, hlookup, hactive⟩ (h.held txnId' txn hlookup hactive key hkey)
  · exact fun callId call hcall => (h.calls callId call hcall).mono hfollows

/-- The engine takes a step, and the transactions that begin in it are no longer being
begun. -/
theorem Locked.evolve (h : s.Locked) {engine : MvccEngine}
    {starting : HashMap ℕ (IsolationLevel × ℕ × LockCall)} {stored : ℕ → Bytes → Prop}
    (hevolves : MvccEngine.Evolves s.engine engine stored)
    (hstored : ∀ txnId key, stored txnId key → s.Active txnId → s.Holding txnId key)
    (hnext : s.engine.nextTxnId ≤ engine.nextTxnId)
    (hstarting : ∀ txnId start, starting.lookup txnId = some start →
      s.starting.lookup txnId = some start ∧ ∀ txn, engine.txns.lookup txnId = some txn →
        s.engine.txns.lookup txnId ≠ none)
    (hbound : ∀ txnId txn, engine.txns.lookup txnId = some txn →
      s.engine.txns.lookup txnId = none → txnId < engine.nextTxnId) :
    { s with engine, starting }.Locked := by
  -- what is known was known before, and has stored nothing else, or is new
  have hold : ∀ txnId txn', engine.txns.lookup txnId = some txn' →
      s.engine.txns.lookup txnId ≠ none → ∃ txn, s.engine.txns.lookup txnId = some txn ∧
        txn'.id = txn.id ∧ txn'.isolation = txn.isolation ∧
        (txn'.state = .active → txn.state = .active) ∧
        ∀ key ∈ txn'.writeSet.writeKeys, key ∈ txn.writeSet.writeKeys ∨ stored txnId key := by
    intro txnId txn' hlookup' hsome
    obtain ⟨txn, hlookup⟩ := Option.ne_none_iff_exists'.mp hsome
    obtain ⟨txn'', hlookup'', hrest⟩ := hevolves.known txnId txn hlookup
    rw [hlookup'] at hlookup''
    obtain rfl := Option.some.inj hlookup''
    exact ⟨txn, hlookup, hrest⟩
  have hfollows : Follows s { s with engine, starting } := by
    refine ⟨?_, ?_, ?_, fun _ => id⟩
    · rintro txnId ⟨txn, hlookup⟩
      obtain ⟨txn', hlookup', -⟩ := hevolves.known txnId txn hlookup
      exact ⟨txn', hlookup'⟩
    · rintro txnId ⟨txn₀, hlookup₀⟩ ⟨txn', hlookup', hactive'⟩
      have hsome : s.engine.txns.lookup txnId ≠ none := by simp [hlookup₀]
      obtain ⟨txn, hlookup, -, -, hactive, -⟩ := hold txnId txn' hlookup' hsome
      exact ⟨txn, hlookup, hactive hactive'⟩
    · rintro txnId ⟨txn, hlookup, hended⟩
      obtain ⟨txn', hlookup', -, -, hactive, -⟩ := hevolves.known txnId txn hlookup
      exact ⟨txn', hlookup', fun hactive' => hended (hactive hactive')⟩
  refine ⟨h.onlyX, h.single, ?_, ?_, ?_, ?_, ?_⟩
  · intro txnId txn' hlookup'
    by_cases hnone : s.engine.txns.lookup txnId = none
    · exact (hevolves.new txnId txn' hlookup' hnone).1
    · obtain ⟨txn, hlookup, hid, -⟩ := hold txnId txn' hlookup' hnone
      exact hid.trans (h.ids txnId txn hlookup)
  · rintro txnId hle ⟨txn', hlookup'⟩
    have hle : engine.nextTxnId ≤ txnId := hle
    by_cases hnone : s.engine.txns.lookup txnId = none
    · have := hbound txnId txn' hlookup' hnone
      omega
    · obtain ⟨txn, hlookup, -⟩ := hold txnId txn' hlookup' hnone
      exact h.fresh txnId (hnext.trans hle) ⟨txn, hlookup⟩
  · intro txnId txn' hlookup' hactive' key hkey
    by_cases hnone : s.engine.txns.lookup txnId = none
    · rw [(hevolves.new txnId txn' hlookup' hnone).2] at hkey
      -- a new transaction has written nothing
      exact absurd hkey List.not_mem_nil
    · obtain ⟨txn, hlookup, -, -, hactive, hkeys⟩ := hold txnId txn' hlookup' hnone
      rcases hkeys key hkey with hkey | hkey
      · exact h.held txnId txn hlookup (hactive hactive') key hkey
      · exact hstored txnId key hkey ⟨txn, hlookup, hactive hactive'⟩
  · intro txnId isolation startTs lock hlookup'
    obtain ⟨hlookup, hunknown'⟩ := hstarting txnId (isolation, startTs, lock) hlookup'
    obtain ⟨hlt, hunknown, hregisters⟩ := h.starting txnId isolation startTs lock hlookup
    refine ⟨hlt.trans_le hnext, ?_, hregisters⟩
    rintro ⟨txn', hknown⟩
    exact hunknown (Option.ne_none_iff_exists'.mp (hunknown' txn' hknown))
  · exact fun callId call hcall => (h.calls callId call hcall).mono hfollows

/-- A step in which no transaction begins. -/
theorem Locked.withEngine (h : s.Locked) {engine : MvccEngine} {stored : ℕ → Bytes → Prop}
    (hevolves : MvccEngine.Evolves s.engine engine stored)
    (hstored : ∀ txnId key, stored txnId key → s.Active txnId → s.Holding txnId key)
    (hnext : s.engine.nextTxnId ≤ engine.nextTxnId)
    (hnew : ∀ txnId, s.engine.txns.lookup txnId = none → engine.txns.lookup txnId = none) :
    { s with engine }.Locked := by
  apply h.evolve hevolves hstored hnext
  · intro txnId start hlookup
    refine ⟨hlookup, fun txn hlookup' hnone => ?_⟩
    rw [hnew txnId hnone] at hlookup'
    contradiction
  · intro txnId txn hlookup hnone
    rw [hnew txnId hnone] at hlookup
    contradiction

/-- A step that touches no transaction. -/
theorem Locked.withTxns (h : s.Locked) {engine : MvccEngine}
    (hnext : s.engine.nextTxnId ≤ engine.nextTxnId) (htxns : engine.txns = s.engine.txns) :
    { s with engine }.Locked := by
  have hevolves : MvccEngine.Evolves s.engine engine fun _ _ => False :=
    MvccEngine.evolves_of_txns_eq htxns
  refine h.withEngine hevolves (fun _ _ => False.elim) hnext fun txnId hnone => ?_
  rw [htxns, hnone]

/-- A step under the guard of a transaction, or one that no guard is needed for. -/
theorem Locked.engineStep (h : s.Locked) {txn : Transaction} {engine : MvccEngine}
    (hlookup : s.engine.txns.lookup txn.id = some txn)
    (hkeeps : MvccEngine.Keeps txn s.engine engine) : { s with engine }.Locked := by
  have hevolves : MvccEngine.Evolves s.engine engine fun _ _ => False := hkeeps.evolves hlookup
  refine h.withEngine hevolves (fun _ _ => False.elim) hkeeps.nextTxnId.ge fun txnId hnone => ?_
  obtain ⟨-, htxns | ⟨txn', -, -, -, -, htxns⟩⟩ := hkeeps
  · rw [htxns, hnone]
  · have hne : txnId ≠ txn.id := by
      rintro rfl
      rw [hlookup] at hnone
      contradiction
    rw [htxns, AList.lookup_insert_ne hne, hnone]

/-- A transaction is being begun. -/
theorem Locked.insertStarting (h : s.Locked) {txnId startTs : ℕ} {isolation : IsolationLevel}
    {lock : LockCall} (hlt : txnId < s.engine.nextTxnId) (hunknown : ¬ s.Known txnId)
    (hregisters : lock.Registers) :
    { s with starting := s.starting.insert txnId (isolation, startTs, lock) }.Locked := by
  refine ⟨h.onlyX, h.single, h.ids, h.fresh, h.held, ?_, h.calls⟩
  intro txnId' isolation' startTs' lock' hstarting
  by_cases heq : txnId' = txnId
  · rw [heq] at hstarting ⊢
    rw [AList.lookup_insert] at hstarting
    obtain ⟨rfl, rfl, rfl⟩ : isolation = isolation' ∧ startTs = startTs' ∧ lock = lock' := by
      simpa using hstarting
    exact ⟨hlt, hunknown, hregisters⟩
  · rw [AList.lookup_insert_ne heq] at hstarting
    exact h.starting txnId' isolation' startTs' lock' hstarting

/-- The transaction has begun. -/
theorem Locked.register (h : s.Locked) {txnId startTs : ℕ} {isolation : IsolationLevel}
    {lock : LockCall} (hstarting : s.starting.lookup txnId = some (isolation, startTs, lock)) :
    { s with
      engine := s.engine.register isolation txnId startTs
      starting := s.starting.erase txnId }.Locked := by
  obtain ⟨hlt, hunknown, -⟩ := h.starting txnId isolation startTs lock hstarting
  have hnone : s.engine.txns.lookup txnId = none := by
    by_contra hsome
    exact hunknown (Option.ne_none_iff_exists'.mp hsome)
  have hother : ∀ txnId', txnId' ≠ txnId →
      (s.engine.register isolation txnId startTs).txns.lookup txnId' =
        s.engine.txns.lookup txnId' := fun _ hne => AList.lookup_insert_ne hne
  have hevolves : MvccEngine.Evolves s.engine (s.engine.register isolation txnId startTs)
      fun _ _ => False := MvccEngine.evolves_register hnone isolation startTs
  refine h.evolve hevolves (fun _ _ => False.elim) le_rfl ?_ ?_
  · intro txnId' start hlookup
    obtain ⟨hne, hlookup⟩ := lookup_erase_eq_some_iff.mp hlookup
    refine ⟨hlookup, fun txn hlookup' hnone' => ?_⟩
    rw [hother txnId' hne, hnone'] at hlookup'
    contradiction
  · intro txnId' txn hlookup hnone'
    by_cases heq : txnId' = txnId
    · rw [heq]
      exact hlt
    · rw [hother txnId' heq, hnone'] at hlookup
      contradiction

theorem safe_of_registers {txnId : ℕ} {choice : LockChoice} {lock : LockCall} (hlock : lock.Registers) :
    s.Safe txnId (s.locks.effect txnId choice lock) := by
  rw [LockTable.effect_registers _ _ _ hlock]
  trivial

theorem safe_of_locksKey {txnId : ℕ} {choice : LockChoice} {lock : LockCall} {key : Bytes}
    (hlock : lock.LocksKey key) : s.Safe txnId (s.locks.effect txnId choice lock) := by
  rcases LockTable.effect_locksKey s.locks txnId choice hlock with heq | heq | ⟨e, heq⟩
  · rw [heq]
    trivial
  · rw [heq]
    exact rfl
  · rw [heq]
    trivial

theorem safe_of_releases {txnId : ℕ} {choice : LockChoice} {lock : LockCall}
    (hended : s.Ended txnId) (hlock : lock.Releases) :
    s.Safe txnId (s.locks.effect txnId choice lock) := by
  rcases LockTable.effect_releases s.locks txnId choice hlock with heq | ⟨key, heq⟩ | heq
  · rw [heq]
    trivial
  · rw [heq]
    exact hended
  · rw [heq]
    trivial

theorem lookup_of_unlocked {txnId : ℕ} {txn : Transaction} (h : s.unlocked txnId = some txn) :
    s.engine.txns.lookup txnId = some txn := by
  unfold unlocked at h
  split at h
  · contradiction
  · exact h

theorem lookup_of_committing {txnId : ℕ} {txn : Transaction} {progress : CommitProgress}
    (h : s.committing txnId = some (txn, progress)) :
    s.engine.txns.lookup txnId = some txn := by
  unfold committing at h
  split at h
  · next hlookup =>
      obtain ⟨rfl, -⟩ := Prod.mk.inj (Option.some.inj h)
      exact hlookup
  · contradiction

theorem commits_of_committing {txnId : ℕ} {txn : Transaction} {progress : CommitProgress}
    (h : s.committing txnId = some (txn, progress)) : s.commits.lookup txnId = some progress := by
  unfold committing at h
  split at h
  · next progress' txn' hprogress _ =>
      rw [hprogress, (Prod.mk.inj (Option.some.inj h)).2]
  · contradiction

/-! ## One step -/

/-- A call takes a step of its own. -/
theorem Locked.advance {hashKey : Bytes → UInt64} (h : s.Locked) {callId : ℕ} {call : EngineCall}
    (hcall : s.calls.lookup callId = some call) {choice : LockChoice} {s' : TxnSystem}
    (heffect : AdvanceEffect hashKey s callId choice call s') : s'.Locked := by
  have hok := h.calls callId call hcall
  cases heffect with
  | @granted txnId isolation op lock hresult =>
      obtain ⟨hknown, -, hheld⟩ := hok
      -- the call of the lock has returned `Ok`
      have hgranted : lock.Granted := by
        cases lock with
        | done result => exact Option.some.inj hresult
        | _ => contradiction
      have hok : s.CallOk (.record txnId isolation op) := ⟨hknown, hheld hgranted⟩
      exact h.goOn hok callId
  | refused => exact h.finish callId
  | @locks txnId isolation op lock =>
      obtain ⟨hknown, hlocks, hheld⟩ := hok
      have hsafe : s.Safe txnId (s.locks.effect txnId choice lock) := safe_of_locksKey hlocks
      have hok : CallOk { s with locks := (s.locks.step txnId choice lock).1 }
          (.write txnId isolation op (s.locks.step txnId choice lock).2) := by
        refine ⟨hknown, LockTable.locksKey_step hlocks, fun hgranted hactive => ?_⟩
        exact LockTable.modeOf_of_granted h.onlyX hlocks (fun hg => hheld hg hactive) hgranted
      exact (h.lockStep hsafe).goOn hok callId
  | @records txnId isolation op =>
      have hok : s.CallOk (.store txnId op) := hok
      unfold MvccEngine.recordWrite
      split
      · exact (h.goOn hok callId).withTxns le_rfl rfl
      · exact h.goOn hok callId
  | blocked => exact h
  | @stores txnId op txn hunlocked =>
      obtain ⟨-, hheld⟩ := hok
      have hlookup := lookup_of_unlocked hunlocked
      obtain rfl := h.ids txnId txn hlookup
      have hevolves := MvccEngine.evolves_storeWrite hlookup op
      refine (h.finish callId).withEngine hevolves ?_ le_rfl ?_
      · rintro txnId key ⟨rfl, rfl⟩ hactive
        exact hheld hactive
      · intro txnId hnone
        have hne : txnId ≠ txn.id := by
          rintro rfl
          have hnone : s.engine.txns.lookup txn.id = none := hnone
          rw [hlookup] at hnone
          contradiction
        exact (AList.lookup_insert_ne hne).trans hnone
  | @aborts txnId isolation =>
      have hok : s.CallOk (.release txnId LockRequest.releaseAll.call) := ⟨hok, trivial⟩
      unfold MvccEngine.ssiAbort
      split
      · exact (h.goOn hok callId).withTxns le_rfl rfl
      · exact h.goOn hok callId
  | released => exact h.finish callId
  | @releases txnId lock =>
      obtain ⟨hended, hreleases⟩ := hok
      have hsafe : s.Safe txnId (s.locks.effect txnId choice lock) :=
        safe_of_releases hended hreleases
      have hok : CallOk { s with locks := (s.locks.step txnId choice lock).1 }
          (.release txnId (s.locks.step txnId choice lock).2) :=
        ⟨hended, LockTable.releases_step hreleases⟩
      exact (h.lockStep hsafe).goOn hok callId

/-- A step of a commit. -/
theorem Locked.proceed (h : s.Locked) {txn : Transaction}
    (hlookup : s.engine.txns.lookup txn.id = some txn)
    {result : Except Error (Option CommitProgress) × MvccEngine}
    (hkeeps : MvccEngine.Keeps txn s.engine result.2)
    (hcommits : result.1 = .ok none → MvccEngine.Commits txn s.engine result.2) :
    (s.proceed txn.id result).Locked := by
  obtain ⟨result, engine⟩ := result
  have hengine := h.engineStep hlookup hkeeps
  cases result with
  | error e => exact hengine.withCommits _
  | ok progress =>
      cases progress with
      | some progress => exact hengine.withCommits _
      | none =>
          have hended : Ended { s with engine, commits := s.commits.erase txn.id } txn.id := by
            refine ⟨{ txn with state := .committed }, ?_, TransactionState.noConfusion⟩
            show engine.txns.lookup txn.id = _
            rw [(hcommits rfl).txns, AList.lookup_insert]
          have hok : CallOk { s with engine, commits := s.commits.erase txn.id }
              (.release txn.id LockRequest.releaseAll.call) := ⟨hended, trivial⟩
          exact (hengine.withCommits _).invoke hok

theorem Locked.step (hashKey : Bytes → UInt64) (h : s.Locked) (action : TxnStep) :
    (s.step hashKey action).Locked := by
  have heffect := s.step_effect hashKey action
  generalize s.step hashKey action = s' at heffect ⊢
  cases heffect with
  | nothing => exact h
  | draws isolation physical timedOut =>
      have hengine : { s with
          engine := (s.engine.drawStartTs isolation physical timedOut).2 }.Locked :=
        h.withTxns (Nat.le_succ _) rfl
      -- the number drawn is new, so nothing of the transaction is there yet
      refine hengine.insertStarting (Nat.lt_succ_self s.engine.nextTxnId) ?_ trivial
      exact h.fresh s.engine.nextTxnId le_rfl
  | registers _ hstarting => exact h.register hstarting
  | @starts txnId startTs isolation lock choice hstarting =>
      obtain ⟨hlt, hunknown, hregisters⟩ := h.starting txnId isolation startTs lock hstarting
      have hsafe : s.Safe txnId (s.locks.effect txnId choice lock) := safe_of_registers hregisters
      exact (h.lockStep hsafe).insertStarting hlt hunknown (LockTable.registers_step hregisters)
  | @gets txnId txn hunlocked key =>
      have hlookup := lookup_of_unlocked hunlocked
      obtain rfl := h.ids txnId txn hlookup
      exact h.engineStep hlookup (MvccEngine.keeps_get hashKey s.engine txn key)
  | @writes txnId txn hunlocked _ op =>
      have hok : s.CallOk (.write txnId txn.isolation op (LockRequest.lockKey op.key .x).call) :=
        ⟨⟨txn, lookup_of_unlocked hunlocked⟩, ⟨rfl, rfl⟩, False.elim⟩
      exact h.invoke hok
  | @commits txnId txn hunlocked physical =>
      have hlookup := lookup_of_unlocked hunlocked
      obtain rfl := h.ids txnId txn hlookup
      have hkeeps : MvccEngine.Keeps txn s.engine
          { s.engine with tsOracle := (s.engine.tsOracle.getTimestamp physical).2 } :=
        ⟨rfl, Or.inl rfl⟩
      exact (h.engineStep hlookup hkeeps).withCommits _
  | @proceeds txnId txn progress order faults hcommitting =>
      have hlookup := lookup_of_committing hcommitting
      obtain rfl := h.ids txnId txn hlookup
      exact h.proceed hlookup (MvccEngine.keeps_commitStep faults order s.engine txn progress)
        MvccEngine.commits_commitStep
  | @aborts txnId txn hunlocked =>
      -- the handle has moved into `abort`, and its clean-up begins
      have hlookup := lookup_of_unlocked hunlocked
      obtain rfl := h.ids txnId txn hlookup
      have hok : CallOk { s with engine := s.engine.managerAbort txn }
          (.ssiAbort txn.id txn.isolation) := by
        refine ⟨{ txn with state := .aborted }, ?_, TransactionState.noConfusion⟩
        exact AList.lookup_insert _
      exact (h.engineStep hlookup (MvccEngine.keeps_managerAbort s.engine txn)).invoke hok
  | advances hcall hadvance => exact h.advance hcall hadvance
  | onStorage storage => exact h.withTxns le_rfl rfl

end

theorem locked_run (hashKey : Bytes → UInt64) (storage : Lsm) (config : LockConfig)
    (steps : List TxnStep) : (Run.run (step hashKey) (init storage config) steps).Locked :=
  Run.invariant Locked (fun _ action h => h.step hashKey action) (locked_init storage config) steps

/-- The write sets of two active transactions have no key in common. -/
def NoDirtyWrites (s : TxnSystem) : Prop :=
  ∀ txnId txnId' txn txn', txnId ≠ txnId' → s.engine.txns.lookup txnId = some txn →
    s.engine.txns.lookup txnId' = some txn' → txn.state = .active → txn'.state = .active →
      ∀ key ∈ txn.writeSet.writeKeys, key ∉ txn'.writeSet.writeKeys

/-- Two active transactions with a key in common are one. -/
theorem Locked.eq_of_common {s : TxnSystem} (h : s.Locked) {txnId txnId' : ℕ}
    {txn txn' : Transaction} (hlookup : s.engine.txns.lookup txnId = some txn)
    (hlookup' : s.engine.txns.lookup txnId' = some txn') (hactive : txn.state = .active)
    (hactive' : txn'.state = .active) {key : Bytes} (hkey : key ∈ txn.writeSet.writeKeys)
    (hkey' : key ∈ txn'.writeSet.writeKeys) : txnId = txnId' :=
  h.single key txnId txnId' (h.held txnId txn hlookup hactive key hkey)
    (h.held txnId' txn' hlookup' hactive' key hkey')

theorem noDirtyWrites_run (hashKey : Bytes → UInt64) (storage : Lsm) (config : LockConfig)
    (steps : List TxnStep) :
    (Run.run (step hashKey) (init storage config) steps).NoDirtyWrites := by
  intro txnId txnId' txn txn' hne hlookup hlookup' hactive hactive' key hkey hkey'
  have h := locked_run hashKey storage config steps
  exact hne (h.eq_of_common hlookup hlookup' hactive hactive' hkey hkey')

end TxnSystem
end Crabstash

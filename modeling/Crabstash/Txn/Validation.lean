import Crabstash.Txn.Closing
import Crabstash.Txn.Noted

/-!
# What a commit meets

What of a transaction is in the two histories that validation searches, at every step of it.
A serializable transaction has its keys in the set of the `SSIManager` before it stores them
(`CallNoted`), so that once it is validated they are all in the write index (`CommitNoted`).
The obstacle is that a set only counts while it is registered and only for the transaction it
was begun for; `Moves` says what a step can do to the engine, and everything here is kept
because the sets grow (`Grows`).

A commit in whose way there is a conflict (`Doomed`) is not through before one of the two
searches has found it.
-/

namespace Crabstash

open Crabstash.Action

/-- The commit that a write is part of.  `finishedTs` is the commit timestamp with which its
transaction has come into the history of the `TransactionManager`. -/
structure CommitSource where
  txnId : ℕ
  isolation : IsolationLevel
  startTs : ℕ
  commitTs : ℕ
  finishedTs : Option ℕ
  deriving DecidableEq, Repr

/-! ## What is known of the engine -/

namespace MvccEngine

variable (hashKey : Bytes → UInt64)

/-- A call of a serializable transaction has its key in the set before it stores it. -/
def CallNoted (s : MvccEngine) : EngineCall → Prop
  | .write txnId isolation _ _ => ∀ txn ∈ s.txns.lookup txnId, txn.isolation = isolation
  | .record txnId isolation _ => ∀ txn ∈ s.txns.lookup txnId, txn.isolation = isolation
  | .store txnId op => ∀ rw ∈ s.ssiManager.activeTxns.lookup txnId, hashKey op.key ∈ rw.writeKeys
  | _ => True

/-- What a serializable transaction writes is in the index. -/
def Indexed (s : MvccEngine) (txn : Transaction) (commitTs : ℕ) : Prop :=
  txn.isolation = .serializable → ∀ key ∈ txn.writeSet.writeKeys,
    ⟨commitTs, txn.startTs⟩ ∈ s.ssiManager.writersOf (hashKey key)

/-- A commit that applies these operations. -/
structure Applies (s : MvccEngine) (txn : Transaction) (todo : List BatchOperation) : Prop where
  indexed : ∃ commitTs, txn.commitTs = some commitTs ∧ s.Indexed hashKey txn commitTs
  keys : ∀ op ∈ todo, op.key ∈ txn.writeSet.writeKeys

/-- What the write index has of a commit where it stands. -/
def CommitNoted (s : MvccEngine) (txn : Transaction) : CommitProgress → Prop
  | .drawn _ => True
  | .validated commitTs => s.Indexed hashKey txn commitTs
  | .applying todo => s.Applies hashKey txn todo
  | .writing _ op todo => s.Applies hashKey txn (op :: todo)

/-- A commit that is still to be refused. -/
def Doomed (s : MvccEngine) (txn : Transaction) : CommitProgress → Prop
  | .drawn commitTs => s.IndexConflict hashKey txn commitTs ∨ s.RecordConflict txn commitTs
  | .validated commitTs => s.RecordConflict txn commitTs
  | .applying _ => False
  | .writing _ _ _ => False

/-- Where a write that has taken effect can be found. -/
structure SourceNoted (s : MvccEngine) (key : Bytes) (source : CommitSource) : Prop where
  known : ∃ txn, s.txns.lookup source.txnId = some txn ∧ txn.startTs = source.startTs ∧
    key ∈ txn.writeSet.writeKeys
  index : source.isolation = .serializable →
    ⟨source.commitTs, source.startTs⟩ ∈ s.ssiManager.writersOf (hashKey key)
  record : ∀ finishedTs ∈ source.finishedTs, ∃ record ∈ s.txnManager.committedTxns,
    record.commitTs = finishedTs ∧ record.startTs = source.startTs ∧ key ∈ record.writeKeys

section

variable {hashKey} {s s' : MvccEngine} {txn : Transaction}

theorem Grows.indexConflict (h : Grows s s') {commitTs : ℕ}
    (hconflict : s.IndexConflict hashKey txn commitTs) : s'.IndexConflict hashKey txn commitTs := by
  obtain ⟨key, hkey, entry, hentry, hoverlap⟩ := hconflict
  exact ⟨key, hkey, entry, h.writers _ hentry, hoverlap⟩

theorem Grows.recordConflict (h : Grows s s') {commitTs : ℕ}
    (hconflict : s.RecordConflict txn commitTs) : s'.RecordConflict txn commitTs := by
  obtain ⟨record, hrecord, hoverlap⟩ := hconflict
  exact ⟨record, h.committed hrecord, hoverlap⟩

theorem Grows.indexed (h : Grows s s') {commitTs : ℕ} (hindexed : s.Indexed hashKey txn commitTs) :
    s'.Indexed hashKey txn commitTs :=
  fun hserializable key hkey => h.writers _ (hindexed hserializable key hkey)

theorem Grows.applies (h : Grows s s') {todo : List BatchOperation}
    (happlies : s.Applies hashKey txn todo) : s'.Applies hashKey txn todo :=
  ⟨happlies.indexed.imp fun _ hindexed => ⟨hindexed.1, h.indexed hindexed.2⟩, happlies.keys⟩

theorem Grows.commitNoted (h : Grows s s') {progress : CommitProgress}
    (hnoted : s.CommitNoted hashKey txn progress) : s'.CommitNoted hashKey txn progress := by
  cases progress with
  | drawn commitTs => trivial
  | validated commitTs => exact h.indexed hnoted
  | applying todo => exact h.applies hnoted
  | writing ts op todo => exact h.applies hnoted

theorem Grows.doomed (h : Grows s s') {progress : CommitProgress}
    (hdoomed : s.Doomed hashKey txn progress) : s'.Doomed hashKey txn progress := by
  cases progress with
  | drawn commitTs => exact hdoomed.imp h.indexConflict h.recordConflict
  | validated commitTs => exact h.recordConflict hdoomed
  | applying todo => exact hdoomed
  | writing ts op todo => exact hdoomed

theorem Grows.sourceNoted (h : Grows s s') {key : Bytes} {source : CommitSource}
    (hnoted : s.SourceNoted hashKey key source) : s'.SourceNoted hashKey key source where
  known := by
    obtain ⟨txn, hlookup, hstart, hkey⟩ := hnoted.known
    obtain ⟨txn', hlookup', hstart', -, -, hwrites⟩ := h.txns _ txn hlookup
    exact ⟨txn', hlookup', hstart'.trans hstart, hwrites hkey⟩
  index := fun hserializable => h.writers _ (hnoted.index hserializable)
  record := by
    intro finishedTs hfinished
    obtain ⟨record, hrecord, hfound⟩ := hnoted.record finishedTs hfinished
    exact ⟨record, h.committed hrecord, hfound⟩

/-- The operations of a commit are those of the write set. -/
theorem key_of_mem_operations {order : IterOrder} {w : WriteSet} {op : BatchOperation}
    (h : op ∈ order.operations w) : op.key ∈ w.writeKeys := by
  rw [WriteSet.mem_writeKeys]
  unfold IterOrder.operations at h
  rcases List.mem_append.mp h with hput | hdelete
  · obtain ⟨⟨key, value⟩, hmem, rfl⟩ := List.mem_map.mp hput
    have hentry := (order.puts_perm w).mem_iff.mp hmem
    unfold WriteSet.iterPuts at hentry
    obtain ⟨e, he, heq⟩ := List.mem_map.mp hentry
    have hkeys : key ∈ w.puts.keys := List.mem_map.mpr ⟨e, he, congrArg Prod.fst heq⟩
    exact Or.inl (AList.mem_keys.mpr hkeys)
  · obtain ⟨key, hmem, rfl⟩ := List.mem_map.mp hdelete
    exact Or.inr ((order.deletes_perm w).mem_iff.mp hmem)

/-- A step that returns does not go on. -/
theorem map_none_ne (result : Except Error Unit) (progress : CommitProgress) :
    result.map (fun _ => (none : Option CommitProgress)) ≠ .ok (some progress) := by
  cases result with
  | ok _ => simp [Except.map]
  | error e => simp [Except.map]

/-- A commit goes on: what it will write is noted, and if it was doomed it still is. -/
theorem noted_commitStep (h : s.Noted hashKey) (hlookup : s.txns.lookup txn.id = some txn)
    {faults : Faults IoCall} {order : IterOrder} {progress progress' : CommitProgress}
    (hcommit : s.CommitNoted hashKey txn progress)
    (hresult : (exec (commitStep faults order txn progress) s).1 = .ok (some progress')) :
    ∃ txn', (exec (commitStep faults order txn progress) s).2.txns.lookup txn.id = some txn' ∧
      (exec (commitStep faults order txn progress) s).2.CommitNoted hashKey txn' progress' ∧
        (txn.isolation = .serializable → s.Doomed hashKey txn progress →
          (exec (commitStep faults order txn progress) s).2.Doomed hashKey txn' progress') := by
  have hgrows := (continues_commitStep faults order hlookup progress).grows
  have hpart := commitStep_part faults order s txn progress
  generalize exec (commitStep faults order txn progress) s = result at hpart hresult hgrows ⊢
  cases hpart with
  | readOnly => exact absurd hresult (map_none_ne _ _)
  | validates commitTs hserializable =>
      cases hvalidated : (exec (validateSsi txn commitTs) s).1 with
      | error e =>
          rw [hvalidated] at hresult
          contradiction
      | ok _ =>
          rw [hvalidated] at hresult
          obtain rfl := Option.some.inj (Except.ok.inj hresult)
          obtain ⟨hclear, hindexed⟩ := of_validateSsi_ok h hlookup hserializable hvalidated
          have htxns : (exec (validateSsi txn commitTs) s).2.txns = s.txns := by
            rw [exec_validateSsi s commitTs hserializable]
          refine ⟨txn, htxns ▸ hlookup, fun _ => hindexed, fun _ hdoomed => ?_⟩
          -- a conflict in the index would not have passed the validation
          rcases hdoomed with hindex | hrecord
          · exact absurd hindex hclear
          · exact hgrows.recordConflict hrecord
  | skips commitTs _ hother =>
      obtain rfl := Option.some.inj (Except.ok.inj hresult)
      exact ⟨txn, hlookup, fun hserializable => absurd hserializable hother,
        fun hserializable => absurd hserializable hother⟩
  | prepares commitTs hprepared =>
      obtain rfl := Option.some.inj (Except.ok.inj hresult)
      refine ⟨_, AList.lookup_insert _, ⟨⟨commitTs, rfl, hcommit⟩, ?_⟩,
        fun hserializable hdoomed => ?_⟩
      · intro op hop
        exact key_of_mem_operations hop
      · exact absurd hdoomed (not_recordConflict_of_ok hserializable hprepared)
  | refuses => contradiction
  | finishes => exact absurd hresult (map_none_ne _ _)
  | draws op todo =>
      obtain rfl : CommitProgress.writing s.storage.nextTs op todo = progress' :=
        Option.some.inj (Except.ok.inj hresult)
      exact ⟨txn, hlookup, hgrows.applies hcommit, fun _ => id⟩
  | writes ts op todo =>
      cases hwritten : (exec (Lsm.writeAt faults ts op) s.storage).1 with
      | error e =>
          rw [hwritten] at hresult
          contradiction
      | ok _ =>
          rw [hwritten] at hresult
          obtain rfl := Option.some.inj (Except.ok.inj hresult)
          refine ⟨txn, hlookup, ⟨hcommit.indexed, fun op' hop' => ?_⟩, fun _ => id⟩
          exact hcommit.keys op' (List.mem_cons_of_mem _ hop')

/-- A commit that is through was not doomed, if its transaction is serializable. -/
theorem not_doomed_of_finished {faults : Faults IoCall} {order : IterOrder}
    {progress : CommitProgress} (hserializable : txn.isolation = .serializable)
    (hresult : (exec (commitStep faults order txn progress) s).1 = .ok none) :
    ¬ s.Doomed hashKey txn progress := by
  obtain ⟨hreadOnly, _⟩ | ⟨rfl, _⟩ := finished_cases hresult
  · rw [hserializable] at hreadOnly
    contradiction
  · exact not_false

/-- A commit that is through has come into the history. -/
theorem record_of_finished {faults : Faults IoCall} {order : IterOrder}
    {progress : CommitProgress}
    (hresult : (exec (commitStep faults order txn progress) s).1 = .ok none) :
    ∃ commitTs, txn.commitTs = some commitTs ∧
      ⟨commitTs, txn.startTs, txn.writeSet.writeKeys⟩ ∈
        (exec (commitStep faults order txn progress) s).2.txnManager.committedTxns := by
  obtain ⟨_, hok, hstate⟩ | ⟨_, hok, hstate⟩ := finished_cases hresult
  · rw [hstate]
    obtain hsame | ⟨hcommitted, htold⟩ := commitReadOnly_cases s txn
    · rw [hsame] at hok ⊢
      exact of_managerCommit_ok hok
    · rw [htold]
      exact of_managerCommit_ok hcommitted
  · rw [hstate]
    exact of_managerCommit_ok hok

end
end MvccEngine

/-! ## What is known of the system -/

namespace TxnSystem

/-- How the engine changes in a step. -/
inductive Moves (hashKey : Bytes → UInt64) (s : TxnSystem) : MvccEngine → Prop
  | continues {engine : MvccEngine} (h : s.engine.Continues engine) : Moves hashKey s engine
  | get {txn : Transaction} (hlookup : s.engine.txns.lookup txn.id = some txn) (key : Bytes) :
      Moves hashKey s (s.engine.get hashKey txn key).2
  | store {txn : Transaction} (hlookup : s.engine.txns.lookup txn.id = some txn) {callId : ℕ}
      {op : BatchOperation} (hcall : s.calls.lookup callId = some (.store txn.id op)) :
      Moves hashKey s (s.engine.storeWrite txn op)
  | register {txnId : ℕ} (hnone : s.engine.txns.lookup txnId = none) (isolation : IsolationLevel)
      (startTs : ℕ) : Moves hashKey s (s.engine.register isolation txnId startTs)

variable {hashKey : Bytes → UInt64} {s : TxnSystem}

theorem moves_step (hashKey : Bytes → UInt64) (h : s.Locked) (action : TxnStep) :
    Moves hashKey s (s.step hashKey action).engine := by
  -- a step that leaves all three books alone
  have hquiet : ∀ {engine : MvccEngine}, engine.txns = s.engine.txns →
      engine.ssiManager = s.engine.ssiManager → engine.txnManager = s.engine.txnManager →
        Moves hashKey s engine := by
    intro engine htxns hssi hmanager
    apply Moves.continues
    apply MvccEngine.continues_of_eq htxns
    · rw [hssi]
      exact SSIManager.Continues.refl _
    · rw [hmanager]
  have hsame : Moves hashKey s s.engine := hquiet rfl rfl rfl
  have heffect := s.step_effect hashKey action
  generalize s.step hashKey action = s' at heffect ⊢
  cases heffect with
  | nothing => exact hsame
  | draws => exact hquiet rfl rfl rfl
  | @registers txnId startTs isolation lock _ _ hstarting =>
      obtain ⟨-, hunknown, -⟩ := h.starting txnId isolation startTs lock hstarting
      refine .register ?_ isolation startTs
      by_contra hsome
      exact hunknown (Option.ne_none_iff_exists'.mp hsome)
  | starts => exact hsame
  | @gets txnId txn hunlocked key =>
      have hlookup := lookup_of_unlocked hunlocked
      obtain rfl := h.ids txnId txn hlookup
      exact .get hlookup key
  | writes => exact hsame
  | commits => exact hquiet rfl rfl rfl
  | @proceeds txnId txn progress order faults hcommitting =>
      have hlookup := lookup_of_committing hcommitting
      obtain rfl := h.ids txnId txn hlookup
      rw [engine_proceed]
      exact .continues (MvccEngine.continues_commitStep faults order hlookup progress)
  | @aborts txnId txn hunlocked =>
      have hlookup := lookup_of_unlocked hunlocked
      obtain rfl := h.ids txnId txn hlookup
      exact .continues (MvccEngine.continues_managerAbort hlookup)
  | advances hcall hadvance =>
      cases hadvance with
      | granted => exact hsame
      | refused => exact hsame
      | locks => exact hsame
      | @records txnId isolation op =>
          exact .continues (MvccEngine.continues_recordWrite _ txnId isolation op.key)
      | blocked => exact hsame
      | @stores txnId op txn hunlocked =>
          have hlookup := lookup_of_unlocked hunlocked
          obtain rfl := h.ids txnId txn hlookup
          exact .store hlookup hcall
      | @aborts txnId isolation =>
          exact .continues (MvccEngine.continues_ssiAbort _ txnId isolation)
      | released => exact hsame
      | releases => exact hsame
  | onStorage => exact hquiet rfl rfl rfl

theorem Moves.grows {engine : MvccEngine} (h : Moves hashKey s engine) :
    MvccEngine.Grows s.engine engine := by
  cases h with
  | continues h => exact h.grows
  | get hlookup key => exact MvccEngine.grows_get hlookup key
  | store hlookup hcall => exact MvccEngine.grows_storeWrite hlookup _
  | register hnone isolation startTs => exact MvccEngine.grows_register hnone isolation startTs

/-- The calls have their keys in the sets. -/
def CallsNoted (hashKey : Bytes → UInt64) (s : TxnSystem) : Prop :=
  ∀ callId call, s.calls.lookup callId = some call → s.engine.CallNoted hashKey call

theorem Moves.noted {engine : MvccEngine} (h : Moves hashKey s engine)
    (hnoted : s.engine.Noted hashKey) (hregistered : s.engine.Registered)
    (hcalls : s.CallsNoted hashKey) : engine.Noted hashKey := by
  cases h with
  | continues h => exact hnoted.continues h
  | get hlookup key => exact hnoted.get hlookup key
  | store hlookup hcall => exact hnoted.storeWrite hlookup (hcalls _ _ hcall)
  | register hnone isolation startTs =>
      exact hnoted.register hregistered hnone isolation startTs

/-- The set of a transaction that has begun has what it had. -/
theorem Moves.writeKeys {engine : MvccEngine} (h : Moves hashKey s engine) {txnId : ℕ}
    (hknown : s.Known txnId) {rw' : ReadWriteSet}
    (hactive : engine.ssiManager.activeTxns.lookup txnId = some rw') :
    ∃ rw, s.engine.ssiManager.activeTxns.lookup txnId = some rw ∧ rw.writeKeys ⊆ rw'.writeKeys := by
  have hssi : s.engine.ssiManager.Continues engine.ssiManager → ∃ rw,
      s.engine.ssiManager.activeTxns.lookup txnId = some rw ∧ rw.writeKeys ⊆ rw'.writeKeys := by
    intro hcontinues
    obtain ⟨rw, hrw, -, hwrites⟩ := hcontinues.active txnId rw' hactive
    exact ⟨rw, hrw, hwrites⟩
  cases h with
  | continues h => exact hssi h.ssi
  | @get txn hlookup key =>
      apply hssi
      unfold MvccEngine.get
      split
      · exact SSIManager.Continues.refl _
      · show SSIManager.Continues s.engine.ssiManager (if txn.isolation = .serializable then
          s.engine.ssiManager.recordRead hashKey txn.id key else s.engine.ssiManager)
        split
        · exact SSIManager.continues_recordRead hashKey _ _ key
        · exact SSIManager.Continues.refl _
  | store hlookup hcall => exact hssi (SSIManager.Continues.refl _)
  | @register other hnone isolation startTs =>
      -- the number that registers has not begun before
      have hne : txnId ≠ other := by
        rintro rfl
        obtain ⟨txn, hlookup⟩ := hknown
        rw [hnone] at hlookup
        contradiction
      refine ⟨rw', ?_, List.Subset.refl _⟩
      have hactive : (if isolation.isSerializable then
          if isolation.isReadOnly then s.engine.ssiManager.beginReadOnlyTxn other startTs
          else s.engine.ssiManager.beginTxnWithTs other startTs
        else s.engine.ssiManager).activeTxns.lookup txnId = some rw' := hactive
      split at hactive
      · split at hactive
        · exact hactive
        · exact (AList.lookup_insert_ne hne).symm.trans hactive
      · exact hactive

/-- What was known of a call stays so. -/
theorem Moves.callNoted {engine : MvccEngine} (h : Moves hashKey s engine) {call : EngineCall}
    (hok : s.CallOk call) (hnoted : s.engine.CallNoted hashKey call) :
    engine.CallNoted hashKey call := by
  have hisolation : ∀ {txnId isolation}, s.Known txnId →
      (∀ txn ∈ s.engine.txns.lookup txnId, txn.isolation = isolation) →
        ∀ txn' ∈ engine.txns.lookup txnId, txn'.isolation = isolation := by
    rintro txnId isolation ⟨txn, hlookup⟩ hsame txn' hlookup'
    obtain ⟨txn'', hlookup'', -, heq, -⟩ := h.grows.txns txnId txn hlookup
    obtain rfl : txn' = txn'' := Option.some.inj (hlookup'.symm.trans hlookup'')
    exact heq.trans (hsame txn hlookup)
  cases call with
  | write txnId isolation op lock => exact hisolation hok.1 hnoted
  | record txnId isolation op => exact hisolation hok.1 hnoted
  | store txnId op =>
      intro rw' hactive
      obtain ⟨rw, hrw, hwrites⟩ := h.writeKeys hok.1 hactive
      exact hwrites (hnoted rw hrw)
  | ssiAbort txnId isolation => trivial
  | release txnId lock => trivial

/-! ### The calls after a step -/

private theorem callsNoted_insert {calls : HashMap ℕ EngineCall} {engine : MvccEngine}
    (hcalls : ∀ callId call, calls.lookup callId = some call → engine.CallNoted hashKey call)
    (call : EngineCall) (hcall : engine.CallNoted hashKey call) (callId callId' : ℕ)
    (call' : EngineCall) (hlookup : (calls.insert callId call).lookup callId' = some call') :
    engine.CallNoted hashKey call' := by
  by_cases heq : callId' = callId
  · rw [heq, AList.lookup_insert] at hlookup
    rw [← Option.some.inj hlookup]
    exact hcall
  · rw [AList.lookup_insert_ne heq] at hlookup
    exact hcalls callId' call' hlookup

private theorem callsNoted_erase {calls : HashMap ℕ EngineCall} {engine : MvccEngine}
    (hcalls : ∀ callId call, calls.lookup callId = some call → engine.CallNoted hashKey call)
    (callId callId' : ℕ) (call' : EngineCall)
    (hlookup : (calls.erase callId).lookup callId' = some call') :
    engine.CallNoted hashKey call' :=
  hcalls callId' call' (lookup_of_erase hlookup)

/-- The set of a call has its key when the call has recorded it, if there is a set. -/
theorem callNoted_records (hregistered : s.engine.Registered) {txnId : ℕ}
    {isolation : IsolationLevel} {op : BatchOperation}
    (hnoted : s.engine.CallNoted hashKey (.record txnId isolation op)) :
    (s.engine.recordWrite hashKey txnId isolation op.key).CallNoted hashKey (.store txnId op) := by
  intro rw hactive
  have hactive : rw ∈ (s.engine.recordWrite hashKey txnId isolation
      op.key).ssiManager.activeTxns.lookup txnId := hactive
  unfold MvccEngine.recordWrite at hactive
  split at hactive
  · have hactive : (s.engine.ssiManager.recordWrite hashKey txnId op.key).activeTxns.lookup
        txnId = some rw := hactive
    rw [SSIManager.activeTxns_recordWrite, lookup_amend_self, Option.map_eq_some_iff] at hactive
    obtain ⟨rw₀, _, rfl⟩ := hactive
    exact List.mem_insert_self
  · next hother =>
      obtain ⟨txn, hlookup, hserializable⟩ := hregistered.activeTxns txnId rw hactive
      exact absurd ((hnoted txn hlookup).symm.trans hserializable) hother

theorem callsNoted_step (h : s.Locked) (hregistered : s.engine.Registered)
    (hcalls : s.CallsNoted hashKey) (action : TxnStep) :
    (s.step hashKey action).CallsNoted hashKey := by
  -- what a call has noted stays noted in the books after the step
  have hold : ∀ callId call, s.calls.lookup callId = some call →
      (s.step hashKey action).engine.CallNoted hashKey call := fun callId call hlookup =>
    (moves_step hashKey h action).callNoted (h.calls callId call hlookup)
      (hcalls callId call hlookup)
  have heffect := s.step_effect hashKey action
  generalize s.step hashKey action = s' at heffect hold ⊢
  cases heffect with
  | nothing => exact hcalls
  | draws => exact hold
  | registers => exact hold
  | starts => exact hold
  | gets => exact hold
  | @writes txnId txn hunlocked _ op =>
      refine callsNoted_insert hcalls (.write txnId txn.isolation op _) ?_ s.nextCallId
      intro txn' hlookup
      rw [Option.mem_def, lookup_of_unlocked hunlocked] at hlookup
      rw [Option.some.inj hlookup]
  | commits => exact hold
  | @proceeds txnId txn progress order faults =>
      generalize exec (commitStep faults order txn progress) s.engine = result at hold ⊢
      obtain ⟨result, engine⟩ := result
      cases result with
      | error e => exact hold
      | ok progress' =>
          cases progress' with
          | some progress' => exact hold
          | none => exact callsNoted_insert hold (.release txnId _) True.intro s.nextCallId
  | @aborts txnId txn =>
      exact callsNoted_insert hold (.ssiAbort txnId txn.isolation) True.intro s.nextCallId
  | @advances callId choice call s' hcall hadvance =>
      have hself := hcalls callId call hcall
      cases hadvance with
      | granted => exact callsNoted_insert hold (.record _ _ _) hself callId
      | refused => exact callsNoted_erase hold callId
      | @locks txnId isolation op lock =>
          exact callsNoted_insert hold
            (.write txnId isolation op (s.locks.step txnId choice lock).2) hself callId
      | @records txnId isolation op =>
          exact callsNoted_insert hold (.store txnId op) (callNoted_records hregistered hself)
            callId
      | blocked => exact hcalls
      | stores => exact callsNoted_erase hold callId
      | aborts =>
          exact callsNoted_insert hold (.release _ LockRequest.releaseAll.call) True.intro callId
      | released => exact callsNoted_erase hold callId
      | releases => exact callsNoted_insert hold (.release _ _) True.intro callId
  | onStorage => exact hold

theorem proceed_commits_ne {txnId other : ℕ} (hne : txnId ≠ other)
    (result : Except Error (Option CommitProgress) × MvccEngine) :
    (s.proceed other result).commits.lookup txnId = s.commits.lookup txnId := by
  obtain ⟨result, engine⟩ := result
  cases result with
  | error e => exact AList.lookup_erase_ne hne
  | ok progress =>
      cases progress with
      | none => exact AList.lookup_erase_ne hne
      | some progress => exact AList.lookup_insert_ne hne

/-- A commit in progress holds the guard of its transaction, which keeps the others out. -/
theorem ne_of_unlocked {txnId other : ℕ} {progress : CommitProgress} {txn' : Transaction}
    (hcommit : s.commits.lookup txnId = some progress) (hunlocked : s.unlocked other = some txn') :
    txnId ≠ other := by
  rintro rfl
  rw [unlocked, hcommit] at hunlocked
  contradiction

/-- A transaction whose commit is under way changes by its commit only. -/
theorem frozen_step (hashKey : Bytes → UInt64) (h : s.Locked) {txnId : ℕ} {txn : Transaction}
    {progress : CommitProgress}
    (hlookup : s.engine.txns.lookup txnId = some txn)
    (hcommit : s.commits.lookup txnId = some progress) {action : TxnStep}
    (hother : ∀ order faults, action ≠ .continueCommit txnId order faults) :
    (s.step hashKey action).engine.txns.lookup txnId = some txn ∧
      (s.step hashKey action).commits.lookup txnId = some progress := by
  have hserved : ∀ {other engine}, txnId ≠ other → MvccEngine.Serves other s.engine engine →
      engine.txns.lookup txnId = some txn :=
    fun hne hserves => (hserves.txns txnId hne).trans hlookup
  have heffect := s.step_effect hashKey action
  generalize s.step hashKey action = s' at heffect ⊢
  cases heffect with
  | nothing => exact ⟨hlookup, hcommit⟩
  | draws => exact ⟨hlookup, hcommit⟩
  | @registers other startTs isolation lock _ _ hstarting =>
      -- the number of a transaction that begins is not known yet
      obtain ⟨-, hunknown, -⟩ := h.starting other isolation startTs lock hstarting
      have hne : txnId ≠ other := by
        rintro rfl
        exact hunknown ⟨txn, hlookup⟩
      exact ⟨(AList.lookup_insert_ne hne).trans hlookup, hcommit⟩
  | starts => exact ⟨hlookup, hcommit⟩
  | @gets other txn' hunlocked key =>
      obtain rfl := h.ids other txn' (lookup_of_unlocked hunlocked)
      exact ⟨hserved (ne_of_unlocked hcommit hunlocked)
        (MvccEngine.serves_get hashKey _ txn' key), hcommit⟩
  | writes => exact ⟨hlookup, hcommit⟩
  | commits hunlocked =>
      exact ⟨hlookup,
        (AList.lookup_insert_ne (ne_of_unlocked hcommit hunlocked)).trans hcommit⟩
  | @proceeds other txn' progress' order faults hcommitting =>
      have hne : txnId ≠ other := by
        rintro rfl
        exact hother order faults rfl
      obtain rfl := h.ids other txn' (lookup_of_committing hcommitting)
      rw [engine_proceed, proceed_commits_ne hne]
      exact ⟨hserved hne (MvccEngine.serves_commitStep faults order _ txn' progress'), hcommit⟩
  | @aborts other txn' hunlocked =>
      obtain rfl := h.ids other txn' (lookup_of_unlocked hunlocked)
      exact ⟨hserved (ne_of_unlocked hcommit hunlocked)
        (MvccEngine.serves_managerAbort _ txn'), hcommit⟩
  | advances hcall hadvance =>
      cases hadvance with
      | granted => exact ⟨hlookup, hcommit⟩
      | refused => exact ⟨hlookup, hcommit⟩
      | locks => exact ⟨hlookup, hcommit⟩
      | @records other isolation op =>
          refine ⟨?_, hcommit⟩
          show (s.engine.recordWrite hashKey other isolation op.key).txns.lookup txnId = some txn
          unfold MvccEngine.recordWrite
          split <;> exact hlookup
      | blocked => exact ⟨hlookup, hcommit⟩
      | @stores other op txn' hunlocked =>
          obtain rfl := h.ids other txn' (lookup_of_unlocked hunlocked)
          exact ⟨hserved (ne_of_unlocked hcommit hunlocked)
            (MvccEngine.serves_storeWrite s.engine txn' op), hcommit⟩
      | @aborts other isolation =>
          refine ⟨?_, hcommit⟩
          show (s.engine.ssiAbort other isolation).txns.lookup txnId = some txn
          unfold MvccEngine.ssiAbort
          split <;> exact hlookup
      | released => exact ⟨hlookup, hcommit⟩
      | releases => exact ⟨hlookup, hcommit⟩
  | onStorage => exact ⟨hlookup, hcommit⟩

end TxnSystem
end Crabstash

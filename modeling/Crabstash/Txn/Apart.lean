import Crabstash.Lock.Release
import Crabstash.Txn.Registrations

/-!
# Steps of others

What a step that is taken for one transaction does to another: it leaves its calls and its
state alone, and puts nothing of it back where it is gone (`Apart`).  The exception is a
call that waits for its lock: it adds the transactions that held its key when it looked to
the wait-for graph, and one of them may have been unregistered since (`WaitsReady`).
-/

namespace Crabstash

open Crabstash.Action

namespace TxnSystem

/-- Nothing of the transaction is touched, and nothing that is gone comes back. -/
structure Apart (txnId : ℕ) (s s' : TxnSystem) : Prop where
  txns : s'.engine.txns.lookup txnId = s.engine.txns.lookup txnId
  ssi : s.engine.ssiManager.Absent txnId → s'.engine.ssiManager.Absent txnId
  manager : txnId ∉ s.engine.txnManager.activeTxns → txnId ∉ s'.engine.txnManager.activeTxns
  locks : ∀ stage, s.locks.ReleasedUpTo txnId stage → s'.locks.ReleasedUpTo txnId stage
  commits : s'.commits.lookup txnId = s.commits.lookup txnId
  calls : ∀ callId call, call.txnId = txnId →
    (s'.calls.lookup callId = some call ↔ s.calls.lookup callId = some call)

section

variable {s s' s'' : TxnSystem} {txnId other : ℕ}

theorem Apart.refl (txnId : ℕ) (s : TxnSystem) : Apart txnId s s :=
  ⟨rfl, id, id, fun _ => id, rfl, fun _ _ _ => Iff.rfl⟩

theorem Apart.trans (h : Apart txnId s s') (h' : Apart txnId s' s'') : Apart txnId s s'' :=
  ⟨h'.txns.trans h.txns, h'.ssi ∘ h.ssi, h'.manager ∘ h.manager,
    fun stage => h'.locks stage ∘ h.locks stage, h'.commits.trans h.commits,
    fun callId call heq => (h'.calls callId call heq).trans (h.calls callId call heq)⟩

theorem apart_locks (hne : txnId ≠ other) {lock : LockCall}
    (hregistered : s.locks.Registered other lock) (choice : LockChoice) :
    Apart txnId s { s with locks := (s.locks.step other choice lock).1 } :=
  ⟨rfl, id, id, fun _ hstage => hstage.other hne hregistered, rfl, fun _ _ _ => Iff.rfl⟩

theorem apart_engine (hne : txnId ≠ other) {engine : MvccEngine}
    (hserves : MvccEngine.Serves other s.engine engine) : Apart txnId s { s with engine } := by
  refine ⟨hserves.txns txnId hne, fun h => h.serves hserves.ssi, ?_, fun _ => id, rfl,
    fun _ _ _ => Iff.rfl⟩
  intro hnot
  rcases hserves.manager with heq | heq
  · exact heq ▸ hnot
  · rw [heq]
    exact fun hmem => hnot (List.mem_of_mem_erase hmem)

theorem apart_register (hne : txnId ≠ other) (isolation : IsolationLevel) (startTs : ℕ) :
    Apart txnId s { s with engine := s.engine.register isolation other startTs } := by
  refine ⟨AList.lookup_insert_ne hne, ?_, ?_, fun _ => id, rfl, fun _ _ _ => Iff.rfl⟩
  · intro h
    have hinsert : ∀ {ν : Type} {m : HashMap ℕ ν} (v : ν), m.lookup txnId = none →
        (m.insert other v).lookup txnId = none :=
      fun _ hnone => (AList.lookup_insert_ne hne).trans hnone
    cases isolation with
    | snapshot => exact h
    | serializable =>
        exact ⟨hinsert _ h.activeTxns, hinsert _ h.activeStartTs, h.readOnlyTxns⟩
    | serializableReadOnly =>
        exact ⟨h.activeTxns, hinsert _ h.activeStartTs, hinsert _ h.readOnlyTxns⟩
    | serializableDeferrable =>
        exact ⟨h.activeTxns, hinsert _ h.activeStartTs, hinsert _ h.readOnlyTxns⟩
  · intro hnot hmem
    rcases List.mem_insert_iff.mp hmem with heq | hmem
    · exact hne heq
    · exact hnot hmem

/-- A call of another transaction is put in the place of one. -/
theorem apart_insertCall {call : EngineCall} (hne : call.txnId ≠ txnId) {callId : ℕ}
    (hold : ∀ old, s.calls.lookup callId = some old → old.txnId ≠ txnId) (nextCallId : ℕ) :
    Apart txnId s { s with calls := s.calls.insert callId call, nextCallId } := by
  refine ⟨rfl, id, id, fun _ => id, rfl, fun callId' call' heq => ?_⟩
  show (s.calls.insert callId call).lookup callId' = some call' ↔ _
  by_cases hsame : callId' = callId
  · rw [hsame, AList.lookup_insert]
    constructor
    · rintro hcall
      exact absurd (Option.some.inj hcall ▸ heq) hne
    · intro hcall
      exact absurd heq (hold call' hcall)
  · rw [AList.lookup_insert_ne hsame]

theorem apart_goOn {call : EngineCall} (hne : call.txnId ≠ txnId) {callId : ℕ}
    (hold : ∀ old, s.calls.lookup callId = some old → old.txnId ≠ txnId) :
    Apart txnId s (s.goOn callId call) := apart_insertCall hne hold _

theorem apart_finish {callId : ℕ}
    (hold : ∀ old, s.calls.lookup callId = some old → old.txnId ≠ txnId) :
    Apart txnId s (s.finish callId) := by
  refine ⟨rfl, id, id, fun _ => id, rfl, fun callId' call' heq => ?_⟩
  show (s.calls.erase callId).lookup callId' = some call' ↔ _
  by_cases hsame : callId' = callId
  · rw [hsame, AList.lookup_erase]
    constructor
    · intro hcall
      contradiction
    · intro hcall
      exact absurd heq (hold call' hcall)
  · rw [AList.lookup_erase_ne hsame]

theorem apart_commits {commits : HashMap ℕ CommitProgress}
    (h : commits.lookup txnId = s.commits.lookup txnId) : Apart txnId s { s with commits } :=
  ⟨rfl, id, id, fun _ => id, h, fun _ _ _ => Iff.rfl⟩

theorem apart_starting (starting : HashMap ℕ (IsolationLevel × ℕ × LockCall)) :
    Apart txnId s { s with starting } :=
  ⟨rfl, id, id, fun _ => id, rfl, fun _ _ _ => Iff.rfl⟩

/-- The transaction that a step is taken for. -/
def actor (s : TxnSystem) : TxnStep → Option ℕ
  | .begin _ _ _ => none
  | .continueBegin txnId _ => some txnId
  | .get txnId _ => some txnId
  | .write txnId _ => some txnId
  | .commit txnId _ => some txnId
  | .continueCommit txnId _ _ => some txnId
  | .abort txnId => some txnId
  | .advance callId _ => (s.calls.lookup callId).map EngineCall.txnId
  | .onStorage _ => none

/-- New calls have new numbers. -/
def CallsFresh (s : TxnSystem) : Prop :=
  ∀ callId call, s.calls.lookup callId = some call → callId < s.nextCallId

theorem apart_invoke (hfresh : s.CallsFresh) {call : EngineCall} (hne : call.txnId ≠ txnId) :
    Apart txnId s (s.invoke call) := by
  apply apart_insertCall hne
  intro old hold
  exact absurd (hfresh _ old hold) (lt_irrefl _)

theorem apart_proceed (hfresh : s.CallsFresh) (hne : txnId ≠ other)
    {result : Except Error (Option CommitProgress) × MvccEngine}
    (hserves : MvccEngine.Serves other s.engine result.2) :
    Apart txnId s (s.proceed other result) := by
  obtain ⟨result, engine⟩ := result
  have hengine := apart_engine hne hserves
  have herase : (s.commits.erase other).lookup txnId = s.commits.lookup txnId :=
    AList.lookup_erase_ne hne
  cases result with
  | error e => exact hengine.trans (apart_commits herase)
  | ok progress =>
      cases progress with
      | some progress =>
          have hinsert : (s.commits.insert other progress).lookup txnId =
              s.commits.lookup txnId := AList.lookup_insert_ne hne
          exact hengine.trans (apart_commits hinsert)
      | none =>
          have hcall : (EngineCall.release other LockRequest.releaseAll.call).txnId ≠ txnId :=
            hne.symm
          have hinvoke := apart_invoke (s := { s with engine, commits := s.commits.erase other })
            hfresh hcall
          exact (hengine.trans (apart_commits herase)).trans hinvoke

/-- A wait is added only for registered transactions. -/
def WaitsReady (s : TxnSystem) : EngineCall → Prop
  | .write txnId _ _ lock => s.locks.Registered txnId lock
  | _ => True

instance (s : TxnSystem) (call : EngineCall) : Decidable (s.WaitsReady call) :=
  match call with
  | .write txnId _ _ lock => inferInstanceAs (Decidable (s.locks.Registered txnId lock))
  | .record _ _ _ => inferInstanceAs (Decidable True)
  | .store _ _ => inferInstanceAs (Decidable True)
  | .ssiAbort _ _ => inferInstanceAs (Decidable True)
  | .release _ _ => inferInstanceAs (Decidable True)

theorem registered_of_registers {lock : LockCall} (h : lock.Registers) (t : LockTable)
    (txnId : ℕ) : t.Registered txnId lock := by
  cases lock <;> first
    | exact h.elim
    | exact fun _ hholder => absurd hholder List.not_mem_nil

theorem registered_of_releases {lock : LockCall} (h : lock.Releases) (t : LockTable)
    (txnId : ℕ) : t.Registered txnId lock := by
  cases lock <;> first
    | exact h.elim
    | exact fun _ hholder => absurd hholder List.not_mem_nil

theorem apart_advance {hashKey : Bytes → UInt64} (h : s.Locked) {callId : ℕ} {call : EngineCall}
    (hcall : s.calls.lookup callId = some call) (hne : call.txnId ≠ txnId)
    (hready : s.WaitsReady call) {choice : LockChoice} {s' : TxnSystem}
    (heffect : AdvanceEffect hashKey s callId choice call s') : Apart txnId s s' := by
  have hold : ∀ old, s.calls.lookup callId = some old → old.txnId ≠ txnId := by
    intro old hlookup
    rw [hcall] at hlookup
    exact Option.some.inj hlookup ▸ hne
  -- the record that is written back is that of the call
  have hok := h.calls callId call hcall
  cases heffect with
  | @granted other isolation op =>
      have hnew : (EngineCall.record other isolation op).txnId ≠ txnId := hne
      exact apart_goOn hnew hold
  | refused => exact apart_finish hold
  | @locks other isolation op lock =>
      have hnew : (EngineCall.write other isolation op
          (s.locks.step other choice lock).2).txnId ≠ txnId := hne
      exact (apart_locks (Ne.symm hne) hready choice).trans (apart_goOn hnew hold)
  | @records other isolation op =>
      have hnew : (EngineCall.store other op).txnId ≠ txnId := hne
      have hserves := MvccEngine.serves_recordWrite hashKey s.engine other isolation op.key
      exact (apart_engine (Ne.symm hne) hserves).trans (apart_goOn hnew hold)
  | blocked => exact Apart.refl txnId s
  | @stores other op txn hunlocked =>
      obtain rfl := h.ids other txn (lookup_of_unlocked hunlocked)
      have hserves := MvccEngine.serves_storeWrite s.engine txn op
      exact (apart_engine (Ne.symm hne) hserves).trans (apart_finish hold)
  | @aborts other isolation =>
      have hnew : (EngineCall.release other LockRequest.releaseAll.call).txnId ≠ txnId := hne
      have hserves := MvccEngine.serves_ssiAbort s.engine other isolation
      exact (apart_engine (Ne.symm hne) hserves).trans (apart_goOn hnew hold)
  | released => exact apart_finish hold
  | @releases other lock =>
      have hregistered := registered_of_releases hok.2 s.locks other
      have hnew : (EngineCall.release other (s.locks.step other choice lock).2).txnId ≠ txnId := hne
      exact (apart_locks (Ne.symm hne) hregistered choice).trans (apart_goOn hnew hold)

/-- A step of another transaction leaves this one alone. -/
theorem apart_step (hashKey : Bytes → UInt64) (h : s.Locked) (hfresh : s.CallsFresh)
    {action : TxnStep} (hne : s.actor action ≠ some txnId)
    (hready : ∀ callId choice, action = .advance callId choice →
      ∀ call ∈ s.calls.lookup callId, s.WaitsReady call) :
    Apart txnId s (s.step hashKey action) := by
  have hother : ∀ {other : ℕ}, s.actor action = some other → txnId ≠ other :=
    fun hactor heq => hne (hactor.trans (congrArg some heq.symm))
  have heffect := s.step_effect hashKey action
  generalize s.step hashKey action = s' at heffect ⊢
  cases heffect with
  | nothing => exact Apart.refl txnId s
  | draws isolation physical timedOut =>
      -- the step serves nobody, for which any other number will do
      have hserves : MvccEngine.Serves (txnId + 1) s.engine
          (s.engine.drawStartTs isolation physical timedOut).2 :=
        ⟨fun _ _ => rfl, SSIManager.Serves.refl _ _, Or.inl rfl⟩
      exact (apart_engine (Nat.ne_of_lt (Nat.lt_succ_self txnId)) hserves).trans (apart_starting _)
  | registers => exact (apart_register (hother rfl) _ _).trans (apart_starting _)
  | @starts other startTs isolation lock choice hstarting =>
      obtain ⟨-, -, hregisters⟩ := h.starting other isolation startTs lock hstarting
      have hregistered := registered_of_registers hregisters s.locks other
      exact (apart_locks (hother rfl) hregistered choice).trans (apart_starting _)
  | @gets other txn hunlocked key =>
      obtain rfl := h.ids other txn (lookup_of_unlocked hunlocked)
      exact apart_engine (hother rfl) (MvccEngine.serves_get hashKey s.engine txn key)
  | writes => exact apart_invoke hfresh fun heq => hne (congrArg some heq)
  | @commits other txn hunlocked physical =>
      have hserves : MvccEngine.Serves other s.engine
          { s.engine with tsOracle := (s.engine.tsOracle.getTimestamp physical).2 } :=
        ⟨fun _ _ => rfl, SSIManager.Serves.refl _ _, Or.inl rfl⟩
      exact (apart_engine (hother rfl) hserves).trans
        (apart_commits (AList.lookup_insert_ne (hother rfl)))
  | @proceeds other txn progress order faults hcommitting =>
      obtain rfl := h.ids other txn (lookup_of_committing hcommitting)
      exact apart_proceed hfresh (hother rfl)
        (MvccEngine.serves_commitStep faults order s.engine txn progress)
  | @aborts other txn hunlocked =>
      obtain rfl := h.ids other txn (lookup_of_unlocked hunlocked)
      have hengine := apart_engine (hother rfl) (MvccEngine.serves_managerAbort s.engine txn)
      have hcall : (EngineCall.ssiAbort txn.id txn.isolation).txnId ≠ txnId := (hother rfl).symm
      exact hengine.trans
        (apart_invoke (s := { s with engine := s.engine.managerAbort txn }) hfresh hcall)
  | @advances callId choice call _ hcall hadvance =>
      have hactor : s.actor (.advance callId choice) = some call.txnId := by
        rw [actor, hcall, Option.map_some]
      exact apart_advance h hcall (hother hactor).symm (hready callId choice rfl call hcall) hadvance
  | onStorage storage =>
      have hserves : MvccEngine.Serves (txnId + 1) s.engine { s.engine with storage } :=
        ⟨fun _ _ => rfl, SSIManager.Serves.refl _ _, Or.inl rfl⟩
      exact apart_engine (Nat.ne_of_lt (Nat.lt_succ_self txnId)) hserves

end

end TxnSystem
end Crabstash

import Crabstash.Lock.SsiCalls
import Crabstash.Txn.Overwritten

/-!
# Safe snapshots

A deferrable transaction waits until no serializable one has written, and starts at the safe
snapshot, which is meant to lie between the commits that have been accepted and those still to
come.  It is the least start of the active transactions, so a transaction that has only read and
may still write and commit is no obstacle: it is active, and commits later than it has started.

The obstacles are three others.  With nothing active the least start is the largest number there
is, and whatever is accepted later is below it.  A transaction that stays active keeps the safe
snapshot at its start, below the commits that are accepted in the meantime.  And an update of the
safe snapshot goes through the starts and stores the least one without a lock, so what it stores
may be the least of starts that have changed since.

The updates are steps of their own here.  The condition (`SafeStep`) is on the state before a
step.  A deferrable transaction that gets a safe snapshot finds one that has been read from the
starts as they are, and an active transaction, and each of those has started after the commits
that have been accepted; or nothing serializable has begun yet.  And the clock does its work: the
commit timestamp of a serializable transaction is above what has been drawn for a start.

The invariant (`Sound`) compares everything with the timestamps drawn for a start: starts and safe
snapshots are not above all of them, and the commits under way are.
-/

namespace Crabstash

open Crabstash.Action

namespace SSIManager

/-! ## What the manager does to the starts -/

/-- What `update_safe_snapshot` stores. -/
def minStartTs (s : SSIManager) : ℕ :=
  (s.activeStartTs.entries.map Sigma.snd).min?.getD (2 ^ 64 - 1)

/-- A method on behalf of a transaction that has begun: who is still active keeps its start, and
no commit is forgotten. -/
structure Retains (s s' : SSIManager) : Prop where
  active : ∀ txnId rw', s'.activeTxns.lookup txnId = some rw' →
    (∃ rw, s.activeTxns.lookup txnId = some rw) ∧
      s'.activeStartTs.lookup txnId = s.activeStartTs.lookup txnId
  startTs : ∀ txnId startTs, s'.activeStartTs.lookup txnId = some startTs →
    s.activeStartTs.lookup txnId = some startTs
  committed : ∀ commitTs ∈ s.committedTxns, commitTs ∈ s'.committedTxns

section

variable {s s' : SSIManager} {txnId : ℕ}

theorem Retains.refl (s : SSIManager) : Retains s s :=
  ⟨fun _ rw h => ⟨⟨rw, h⟩, rfl⟩, fun _ _ => id, fun _ => id⟩

theorem retains_of_sameCommits (hcontinues : s.Continues s') (hsame : s.SameCommits s') :
    Retains s s' := by
  refine ⟨fun txnId rw' hlookup => ?_, hcontinues.startTs, fun commitTs hmem => ?_⟩
  · obtain ⟨rw, hrw, -⟩ := hcontinues.active txnId rw' hlookup
    exact ⟨⟨rw, hrw⟩, by rw [hsame.activeStartTs]⟩
  · rwa [hsame.committedTxns]

theorem retains_abortTxn (s : SSIManager) (txnId : ℕ) : Retains s (s.abortTxn txnId) := by
  refine ⟨fun other rw' hlookup => ?_, fun _ _ => lookup_of_erase, fun _ => id⟩
  obtain ⟨hne, hlookup⟩ := lookup_erase_eq_some_iff.mp hlookup
  exact ⟨⟨rw', hlookup⟩, AList.lookup_erase_ne hne⟩

theorem retains_commitReadOnlyTxn (hinactive : s.activeTxns.lookup txnId = none) :
    Retains s (s.commitReadOnlyTxn txnId) := by
  refine ⟨fun other rw' hlookup => ⟨⟨rw', hlookup⟩, AList.lookup_erase_ne ?_⟩,
    fun _ _ => lookup_of_erase, fun _ => id⟩
  rintro rfl
  have hlookup : s.activeTxns.lookup other = some rw' := hlookup
  rw [hinactive] at hlookup
  contradiction

/-- A validation keeps what is active; one that accepts is of an active transaction, and knows the
commit from then on. -/
theorem validateAndCommit_cases (s : SSIManager) (txnId readTs commitTs : ℕ) :
    Retains s (s.validateAndCommit txnId readTs commitTs).2 ∧
      (s.accepts txnId readTs commitTs [] = false ∨
        s.accepts txnId readTs commitTs [] = true ∧
          commitTs ∈ (s.validateAndCommit txnId readTs commitTs).2.committedTxns ∧
          ∃ rw, s.activeTxns.lookup txnId = some rw) := by
  have hcontinues := continues_validateAndCommit s txnId readTs commitTs
  unfold validateAndCommit at hcontinues ⊢
  obtain ⟨s', hs', ⟨hresult, haccepts⟩ | ⟨e, hresult, haccepts⟩⟩ :=
    validate_cases s txnId readTs commitTs []
  · rw [hs'] at hcontinues ⊢
    obtain ⟨rw, outbound, hrw, -, heq⟩ := validate_ok hresult
    refine ⟨⟨fun other rw' hlookup => ?_, hcontinues.startTs, fun ts hmem => ?_⟩,
      Or.inr ⟨haccepts, ?_, rw, hrw⟩⟩
    · obtain ⟨rw₀, hrw₀, -⟩ := hcontinues.active other rw' hlookup
      -- whoever is active after it is another transaction
      have hne : other ≠ txnId := by
        rintro rfl
        have hgone : s'.activeTxns.lookup other = none := by
          rw [heq]
          exact AList.lookup_erase _ _
        rw [hgone] at hlookup
        contradiction
      refine ⟨⟨rw₀, hrw₀⟩, ?_⟩
      rw [heq]
      exact AList.lookup_erase_ne hne
    · rw [heq]
      exact (AList.mem_insert _).mpr (Or.inr hmem)
    · rw [heq]
      exact (AList.mem_insert _).mpr (Or.inl rfl)
  · rw [hs'] at hcontinues ⊢
    have hsame : s'.activeStartTs = s.activeStartTs ∧ s'.committedTxns = s.committedTxns := by
      rcases validate_error hresult with rfl | ⟨rw, inbound, outbound, -, rfl⟩
      · exact ⟨rfl, rfl⟩
      · exact ⟨rfl, rfl⟩
    refine ⟨⟨fun other rw' hlookup => ?_, hcontinues.startTs, fun ts hmem => ?_⟩,
      Or.inl haccepts⟩
    · obtain ⟨rw₀, hrw₀, -⟩ := hcontinues.active other rw' hlookup
      exact ⟨⟨rw₀, hrw₀⟩, by rw [hsame.1]⟩
    · rwa [hsame.2]

theorem minStartTs_mem (hne : s.activeStartTs.entries ≠ []) :
    ∃ e ∈ s.activeStartTs.entries, e.2 = s.minStartTs := by
  have hmap : s.activeStartTs.entries.map Sigma.snd ≠ [] := fun hnil => hne (List.map_eq_nil_iff.mp hnil)
  obtain ⟨least, hleast⟩ := Option.isSome_iff_exists.mp (List.isSome_min?_iff.mpr hmap)
  obtain ⟨e, he, heq⟩ := List.mem_map.mp (List.min?_mem hleast)
  refine ⟨e, he, ?_⟩
  rw [minStartTs, hleast, heq, Option.getD_some]

theorem minStartTs_le {startTs : ℕ} (hlookup : s.activeStartTs.lookup txnId = some startTs) :
    s.minStartTs ≤ startTs := by
  have hmem : startTs ∈ s.activeStartTs.entries.map Sigma.snd :=
    List.mem_map.mpr ⟨_, AList.mem_lookup_iff.mp hlookup, rfl⟩
  obtain ⟨least, hleast⟩ := Option.isSome_iff_exists.mp
    (List.isSome_min?_iff.mpr (List.ne_nil_of_mem hmem))
  rw [minStartTs, hleast, Option.getD_some]
  exact (List.min?_eq_some_iff.mp hleast).2 _ hmem

end
end SSIManager

namespace MvccEngine

/-! ## What the engine does to them -/

/-- A serializable transaction has begun. -/
def Serializes (s : MvccEngine) : Prop := ∃ e ∈ s.txns.entries, e.2.isolation.isSerializable = true

instance (s : MvccEngine) : Decidable s.Serializes := inferInstanceAs (Decidable (∃ _ ∈ _, _))

/-- A method on behalf of a transaction that has begun. -/
def Retains (s s' : MvccEngine) : Prop := SSIManager.Retains s.ssiManager s'.ssiManager

section

variable {s s' : MvccEngine} {txn : Transaction}

theorem serializes_of_lookup {txnId : ℕ} (hlookup : s.txns.lookup txnId = some txn)
    (hserializable : txn.isolation.isSerializable = true) : s.Serializes :=
  ⟨⟨txnId, txn⟩, AList.mem_lookup_iff.mp hlookup, hserializable⟩

theorem Serializes.evolves (h : s.Serializes) {stored : ℕ → Bytes → Prop}
    (hevolves : Evolves s s' stored) : s'.Serializes := by
  obtain ⟨⟨txnId, txn⟩, hmem, hserializable⟩ := h
  obtain ⟨txn', hlookup', -, hisolation, -⟩ :=
    hevolves.known txnId txn (AList.mem_lookup_iff.mpr hmem)
  exact serializes_of_lookup hlookup' (by rw [hisolation]; exact hserializable)

theorem retains_of_eq (h : s'.ssiManager = s.ssiManager) : Retains s s' := by
  unfold Retains
  rw [h]
  exact SSIManager.Retains.refl _

theorem retains_get (hashKey : Bytes → UInt64) (s : MvccEngine) (txn : Transaction)
    (key : Bytes) : Retains s (s.get hashKey txn key).2 := by
  unfold get
  split
  · exact retains_of_eq rfl
  · by_cases hserializable : txn.isolation = .serializable
    · simp only [hserializable, if_true]
      exact SSIManager.retains_of_sameCommits (SSIManager.continues_recordRead hashKey _ _ key)
        (SSIManager.sameCommits_recordRead hashKey _ _ key)
    · simp only [hserializable, if_false]
      exact retains_of_eq rfl

theorem retains_recordWrite (hashKey : Bytes → UInt64) (s : MvccEngine) (txnId : ℕ)
    (isolation : IsolationLevel) (key : Bytes) :
    Retains s (s.recordWrite hashKey txnId isolation key) := by
  unfold recordWrite
  split
  · exact SSIManager.retains_of_sameCommits (SSIManager.continues_recordWrite hashKey _ _ key)
      (SSIManager.sameCommits_recordWrite hashKey _ _ key)
  · exact retains_of_eq rfl

theorem retains_ssiAbort (s : MvccEngine) (txnId : ℕ) (isolation : IsolationLevel) :
    Retains s (s.ssiAbort txnId isolation) := by
  unfold ssiAbort
  split
  · exact SSIManager.retains_abortTxn _ _
  · exact retains_of_eq rfl

theorem ssiManager_managerCommit (s : MvccEngine) (txn : Transaction) :
    (exec (managerCommit txn) s).2.ssiManager = s.ssiManager := by
  rw [exec_managerCommit]
  split <;> rfl

theorem retains_commitReadOnly (hregistered : s.Registered)
    (hlookup : s.txns.lookup txn.id = some txn) (hreadOnly : txn.isolation.isReadOnly = true) :
    Retains s (exec (commitReadOnly txn) s).2 := by
  have hmanager := ssiManager_managerCommit s txn
  obtain hsame | ⟨-, htold⟩ := commitReadOnly_cases s txn
  · rw [hsame]
    exact retains_of_eq hmanager
  · have hinactive : s.ssiManager.activeTxns.lookup txn.id = none := by
      by_contra hsome
      obtain ⟨rw, hrw⟩ := Option.ne_none_iff_exists'.mp hsome
      obtain ⟨txn', hlookup', hserializable⟩ := hregistered.activeTxns txn.id rw hrw
      obtain rfl := Option.some.inj (hlookup.symm.trans hlookup')
      rw [hserializable] at hreadOnly
      contradiction
    rw [htold]
    unfold Retains
    simp only [hmanager]
    exact SSIManager.retains_commitReadOnlyTxn hinactive

theorem retains_commitStep (hregistered : s.Registered)
    (hlookup : s.txns.lookup txn.id = some txn) (faults : Faults IoCall) (order : IterOrder)
    (progress : CommitProgress) :
    Retains s (exec (commitStep faults order txn progress) s).2 := by
  have hpart := commitStep_part faults order s txn progress
  generalize exec (commitStep faults order txn progress) s = result at hpart ⊢
  cases hpart with
  | readOnly commitTs hreadOnly => exact retains_commitReadOnly hregistered hlookup hreadOnly
  | validates commitTs hserializable =>
      rw [exec_validateSsi s commitTs hserializable]
      exact (s.ssiManager.validateAndCommit_cases txn.id txn.startTs commitTs).1
  | finishes => exact retains_of_eq (ssiManager_managerCommit s txn)
  | _ => exact retains_of_eq rfl

theorem commitStep_ne_drawn (faults : Faults IoCall) (order : IterOrder) (txn : Transaction)
    (progress : CommitProgress) (commitTs : ℕ) (s : MvccEngine) :
    (exec (commitStep faults order txn progress) s).1 ≠ .ok (some (.drawn commitTs)) := by
  have hpart := commitStep_part faults order s txn progress
  generalize exec (commitStep faults order txn progress) s = result at hpart ⊢
  cases hpart with
  | readOnly => cases (exec (commitReadOnly txn) s).1 <;> simp [Except.map]
  | validates commitTs' => cases (exec (validateSsi txn commitTs') s).1 <;> simp [Except.map]
  | finishes => cases (exec (managerCommit txn) s).1 <;> simp [Except.map]
  | writes ts op => cases (exec (Lsm.writeAt faults ts op) s.storage).1 <;> simp [Except.map]
  | _ => simp

end
end MvccEngine

namespace TxnSystem

variable {hashKey : Bytes → UInt64} {s : TxnSystem}

/-- A step is taken on behalf of transactions that have begun, or a transaction begins. -/
theorem retains_step (h : s.Locked) (hregistered : s.engine.Registered) (action : TxnStep) :
    MvccEngine.Retains s.engine (s.step hashKey action).engine ∨
      ∃ txnId isolation startTs lock, s.starting.lookup txnId = some (isolation, startTs, lock) ∧
        (s.step hashKey action).engine = s.engine.register isolation txnId startTs := by
  have hsame : MvccEngine.Retains s.engine s.engine := MvccEngine.retains_of_eq rfl
  have heffect := s.step_effect hashKey action
  generalize s.step hashKey action = s' at heffect ⊢
  cases heffect with
  | nothing => exact Or.inl hsame
  | draws => exact Or.inl (MvccEngine.retains_of_eq rfl)
  | registers _ hstarting => exact Or.inr ⟨_, _, _, _, hstarting, rfl⟩
  | starts => exact Or.inl hsame
  | @gets txnId txn _ key => exact Or.inl (MvccEngine.retains_get hashKey s.engine txn key)
  | writes => exact Or.inl hsame
  | commits => exact Or.inl (MvccEngine.retains_of_eq rfl)
  | @proceeds txnId txn progress order faults hcommitting =>
      -- a commit takes out its own start only
      have hlookup := lookup_of_committing hcommitting
      obtain rfl := h.ids txnId txn hlookup
      rw [engine_proceed]
      exact Or.inl (MvccEngine.retains_commitStep hregistered hlookup faults order progress)
  | aborts => exact Or.inl (MvccEngine.retains_of_eq rfl)
  | @advances callId choice call s' hcall hadvance =>
      left
      cases hadvance with
      | granted => exact hsame
      | refused => exact hsame
      | locks => exact hsame
      | @records txnId isolation op =>
          exact MvccEngine.retains_recordWrite hashKey s.engine txnId isolation op.key
      | blocked => exact hsame
      | stores => exact MvccEngine.retains_of_eq rfl
      | @aborts txnId isolation =>
          exact MvccEngine.retains_ssiAbort s.engine txnId isolation
      | released => exact hsame
      | releases => exact hsame
  | onStorage => exact Or.inl (MvccEngine.retains_of_eq rfl)

/-- What a step does to the starts: who is active after it has been active with the same start, or
begins with it. -/
structure KeepsStarts (s : TxnSystem) (engine : MvccEngine) : Prop where
  active : ∀ txnId rw', engine.ssiManager.activeTxns.lookup txnId = some rw' →
    (∃ rw, s.engine.ssiManager.activeTxns.lookup txnId = some rw) ∧
        engine.ssiManager.activeStartTs.lookup txnId =
          s.engine.ssiManager.activeStartTs.lookup txnId ∨
      ¬s.Known txnId ∧ ∃ startTs, engine.ssiManager.activeStartTs.lookup txnId = some startTs
  startTs : ∀ txnId startTs, engine.ssiManager.activeStartTs.lookup txnId = some startTs →
    s.engine.ssiManager.activeStartTs.lookup txnId = some startTs ∨
      ∃ isolation lock, s.starting.lookup txnId = some (isolation, startTs, lock)
  committed : ∀ commitTs ∈ s.engine.ssiManager.committedTxns,
    commitTs ∈ engine.ssiManager.committedTxns

theorem keepsStarts_register (hregistered : s.engine.Registered) {txnId startTs : ℕ}
    {isolation : IsolationLevel} {lock : LockCall} (hunknown : ¬s.Known txnId)
    (hstarting : s.starting.lookup txnId = some (isolation, startTs, lock)) :
    s.KeepsStarts (s.engine.register isolation txnId startTs) := by
  have hinactive : ∀ rw, s.engine.ssiManager.activeTxns.lookup txnId ≠ some rw := by
    intro rw hrw
    obtain ⟨txn, hlookup, -⟩ := hregistered.activeTxns txnId rw hrw
    exact hunknown ⟨txn, hlookup⟩
  -- a registration puts the start into the map
  have hstart : ∀ other ts, (s.engine.ssiManager.activeStartTs.insert txnId startTs).lookup other =
      some ts → s.engine.ssiManager.activeStartTs.lookup other = some ts ∨
        ∃ isolation lock, s.starting.lookup other = some (isolation, ts, lock) := by
    intro other ts hlookup
    rcases lookup_insert_cases hlookup with ⟨rfl, rfl⟩ | hold
    · exact Or.inr ⟨isolation, lock, hstarting⟩
    · exact Or.inl hold
  have hreadOnly : ∀ other rw', s.engine.ssiManager.activeTxns.lookup other = some rw' →
      (∃ rw, s.engine.ssiManager.activeTxns.lookup other = some rw) ∧
        (s.engine.ssiManager.activeStartTs.insert txnId startTs).lookup other =
          s.engine.ssiManager.activeStartTs.lookup other := by
    intro other rw' hlookup
    have hne : other ≠ txnId := by
      rintro rfl
      exact hinactive rw' hlookup
    exact ⟨⟨rw', hlookup⟩, AList.lookup_insert_ne hne⟩
  cases isolation with
  | snapshot =>
      exact ⟨fun other rw' hlookup => Or.inl ⟨⟨rw', hlookup⟩, rfl⟩, fun _ _ => Or.inl,
        fun _ => id⟩
  | serializable =>
      refine ⟨fun other rw' hlookup => ?_, hstart, fun _ => id⟩
      rcases lookup_insert_cases hlookup with ⟨rfl, -⟩ | hold
      · exact Or.inr ⟨hunknown, startTs, AList.lookup_insert _⟩
      · exact Or.inl (hreadOnly other rw' hold)
  | serializableReadOnly =>
      exact ⟨fun other rw' hlookup => Or.inl (hreadOnly other rw' hlookup), hstart, fun _ => id⟩
  | serializableDeferrable =>
      exact ⟨fun other rw' hlookup => Or.inl (hreadOnly other rw' hlookup), hstart, fun _ => id⟩

theorem keepsStarts_step (h : s.Locked) (hregistered : s.engine.Registered) (action : TxnStep) :
    s.KeepsStarts (s.step hashKey action).engine := by
  rcases retains_step h hregistered action with
    hretains | ⟨txnId, isolation, startTs, lock, hstarting, heq⟩
  · exact ⟨fun txnId rw' hlookup => Or.inl (hretains.active txnId rw' hlookup),
      fun txnId startTs hlookup => Or.inl (hretains.startTs txnId startTs hlookup),
      hretains.committed⟩
  · rw [heq]
    exact keepsStarts_register hregistered (h.starting txnId isolation startTs lock hstarting).2.1
      hstarting

theorem known_step (h : s.Locked) {txnId : ℕ} (hknown : s.Known txnId) (action : TxnStep) :
    (s.step hashKey action).Known txnId := by
  obtain ⟨txn, hlookup⟩ := hknown
  obtain ⟨txn', hlookup', -⟩ := (evolves_step hashKey h action).known txnId txn hlookup
  exact ⟨txn', hlookup'⟩

/-- A transaction that is starting after a step was starting before, or has just drawn its
timestamp. -/
theorem starting_step {action : TxnStep} {txnId startTs : ℕ} {isolation : IsolationLevel}
    {lock : LockCall}
    (h : (s.step hashKey action).starting.lookup txnId = some (isolation, startTs, lock)) :
    (∃ lock', s.starting.lookup txnId = some (isolation, startTs, lock')) ∨
      ∃ physical timedOut, action = .begin isolation physical timedOut ∧
        txnId = s.engine.nextTxnId ∧
          startTs = (s.engine.drawStartTs isolation physical timedOut).1.2 := by
  have heffect := s.step_effect hashKey action
  generalize s.step hashKey action = s' at heffect h
  cases heffect with
  | nothing => exact Or.inl ⟨lock, h⟩
  | draws isolation' physical timedOut =>
      -- the transaction that is drawing has a number that nobody has had
      rcases lookup_insert_cases h with ⟨hid, heq⟩ | hold
      · obtain ⟨rfl, hstart⟩ := Prod.mk.inj heq
        exact Or.inr ⟨physical, timedOut, rfl, hid, (Prod.mk.inj hstart).1.symm⟩
      · exact Or.inl ⟨lock, hold⟩
  | registers => exact Or.inl ⟨lock, lookup_of_erase h⟩
  | starts _ hstarting =>
      rcases lookup_insert_cases h with ⟨rfl, heq⟩ | hold
      · cases heq
        exact Or.inl ⟨_, hstarting⟩
      · exact Or.inl ⟨lock, hold⟩
  | gets => exact Or.inl ⟨lock, h⟩
  | writes => exact Or.inl ⟨lock, h⟩
  | commits => exact Or.inl ⟨lock, h⟩
  | @proceeds other txn progress order faults =>
      generalize exec (commitStep faults order txn progress) s.engine = result at h
      obtain ⟨result, engine⟩ := result
      cases result with
      | error e => exact Or.inl ⟨lock, h⟩
      | ok progress' => cases progress' <;> exact Or.inl ⟨lock, h⟩
  | aborts => exact Or.inl ⟨lock, h⟩
  | advances _ hadvance => cases hadvance <;> exact Or.inl ⟨lock, h⟩
  | onStorage => exact Or.inl ⟨lock, h⟩

/-- A commit timestamp that has not been validated was there before, or has just been drawn. -/
theorem drawn_step (h : s.Locked) {action : TxnStep} {txnId commitTs : ℕ} {txn : Transaction}
    (hlookup : s.engine.txns.lookup txnId = some txn)
    (hcommit : (s.step hashKey action).commits.lookup txnId = some (.drawn commitTs)) :
    s.commits.lookup txnId = some (.drawn commitTs) ∨
      ∃ physical, action = .commit txnId physical ∧ s.unlocked txnId = some txn ∧
        commitTs = (s.engine.tsOracle.getTimestamp physical).1 := by
  cases hold : s.commits.lookup txnId with
  | none =>
      obtain ⟨physical, txn', haction, hunlocked, hprogress⟩ := commit_of_none hold hcommit
      obtain rfl := Option.some.inj (hlookup.symm.trans (lookup_of_unlocked hunlocked))
      exact Or.inr ⟨physical, haction, hunlocked, CommitProgress.drawn.inj hprogress⟩
  | some progress =>
      by_cases hown : ∃ order faults, action = .continueCommit txnId order faults
      · obtain ⟨order, faults, rfl⟩ := hown
        obtain ⟨hcontinued, -⟩ := continued_of_some hlookup hold hcommit
        -- no step of a commit leads back to its first stage
        exact absurd hcontinued
          (MvccEngine.commitStep_ne_drawn faults order txn progress commitTs s.engine)
      · push Not at hown
        obtain ⟨-, hsame⟩ := frozen_step hashKey h hlookup hold hown
        rw [hsame] at hcommit
        exact Or.inl hcommit

end TxnSystem

/-! ## The journal -/

/-- A wait for a safe snapshot that ends in time, and a validation that accepts. -/
inductive SnapshotEvent where
  | returned (safeTs : ℕ)
  | accepted (commitTs : ℕ)
  deriving DecidableEq, Repr

namespace SnapshotEvent

/-- What the first of two events has to do with the second: a safe snapshot is not below the
commits before it, and it is below those after it. -/
def InOrder : SnapshotEvent → SnapshotEvent → Prop
  | .accepted commitTs, .returned safeTs => commitTs ≤ safeTs
  | .returned safeTs, .accepted commitTs => safeTs < commitTs
  | _, _ => True

instance : DecidableRel InOrder := fun e e' => by
  cases e <;> cases e' <;> unfold InOrder <;> infer_instance

end SnapshotEvent

/-- A call of `update_safe_snapshot` under way: how often the starts had changed when it began to
go through them and, once it has been through them, the least it has seen. -/
structure SafeUpdate where
  began : ℕ
  least : Option ℕ
  deriving DecidableEq, Repr

/-- A step of the transactions, or of an update of the safe snapshot. -/
inductive SnapshotStep where
  | txn (action : TxnStep)
  | beginUpdate
  | readStarts (i seen : ℕ)
  | storeSafe (i : ℕ)

/-- The system; how often the starts have changed, the updates under way, and when the one began
that has stored last; the timestamps drawn for a start, and the events so far. -/
structure SnapshotHistory where
  system : TxnSystem
  changes : ℕ
  updates : List SafeUpdate
  stored : Option ℕ
  started : List ℕ
  events : List SnapshotEvent

namespace TxnSystem

/-- The timestamp that a step draws for a start. -/
def startedBy (s : TxnSystem) : TxnStep → List ℕ
  | .begin _ physical _ => [(s.engine.tsOracle.getTimestamp physical).1]
  | _ => []

/-- The event that a step is. -/
def eventBy (s : TxnSystem) : TxnStep → Option SnapshotEvent
  | .begin isolation _ timedOut =>
      if isolation.isDeferrable then
        (s.engine.ssiManager.waitForSafeSnapshot timedOut).map .returned
      else none
  | .continueCommit txnId _ _ =>
      match s.committing txnId with
      | some (txn, .drawn commitTs) =>
          if txn.isolation = .serializable ∧
              s.engine.ssiManager.accepts txn.id txn.startTs commitTs [] = true then
            some (.accepted commitTs)
          else none
      | _ => none
  | _ => none

/-- `safe_snapshot.store`. -/
def withSafeSnapshot (s : TxnSystem) (safeTs : ℕ) : TxnSystem :=
  { s with
    engine := { s.engine with ssiManager := { s.engine.ssiManager with safeSnapshot := safeTs } } }

end TxnSystem

namespace SnapshotHistory

/-- No transaction has begun and no update is under way. -/
def init (storage : Lsm) (config : LockConfig) : SnapshotHistory :=
  { system := TxnSystem.init storage config, changes := 0, updates := [], stored := none
    started := [], events := [] }

/-- The starts of the active transactions. -/
def starts (h : SnapshotHistory) : List (Σ _ : ℕ, ℕ) :=
  h.system.engine.ssiManager.activeStartTs.entries

/-- A step of the transactions.  The safe snapshot stays as it is; the update of it is still to
come. -/
def txn (hashKey : Bytes → UInt64) (h : SnapshotHistory) (action : TxnStep) : SnapshotHistory :=
  { h with
    system := (h.system.step hashKey action).withSafeSnapshot
      h.system.engine.ssiManager.safeSnapshot
    changes :=
      if (h.system.step hashKey action).engine.ssiManager.activeStartTs.entries = h.starts then
        h.changes
      else h.changes + 1
    started := h.started ++ h.system.startedBy action
    events := h.events ++ (h.system.eventBy action).toList }

/-- An update begins; it is part of a call for a serializable transaction that has begun. -/
def beginUpdate (h : SnapshotHistory) : SnapshotHistory :=
  if h.system.engine.Serializes then
    { h with updates := h.updates ++ [{ began := h.changes, least := none }] }
  else h

/-- An update has been through the starts.  If they have changed meanwhile, it has seen some of
them before and some of them after, and the least of these may be any number. -/
def readStarts (h : SnapshotHistory) (i seen : ℕ) : SnapshotHistory :=
  match h.updates[i]? with
  | some { began, least := none } =>
      let least := if began = h.changes then h.system.engine.ssiManager.minStartTs else seen
      { h with updates := h.updates.set i { began, least := some least } }
  | _ => h

/-- An update stores what it has seen. -/
def storeSafe (h : SnapshotHistory) (i : ℕ) : SnapshotHistory :=
  match h.updates[i]? with
  | some { began, least := some least } =>
      { h with
        system := h.system.withSafeSnapshot least
        updates := h.updates.eraseIdx i
        stored := some began }
  | _ => h

/-- The history after a step of the system, or of an update of the safe snapshot. -/
def step (hashKey : Bytes → UInt64) (h : SnapshotHistory) : SnapshotStep → SnapshotHistory
  | .txn action => h.txn hashKey action
  | .beginUpdate => h.beginUpdate
  | .readStarts i seen => h.readStarts i seen
  | .storeSafe i => h.storeSafe i

/-- Nothing serializable has begun, or the starts have not changed since the update began that has
stored last, something is active, and it has all been started after what has been accepted. -/
def SnapshotSafe (h : SnapshotHistory) : Prop :=
  ¬h.system.engine.Serializes ∨ h.stored = some h.changes ∧ h.starts ≠ [] ∧
    ∀ commitTs ∈ h.system.engine.ssiManager.committedTxns.keys, ∀ e ∈ h.starts, commitTs ≤ e.2

instance (h : SnapshotHistory) : Decidable h.SnapshotSafe :=
  inferInstanceAs (Decidable (_ ∨ _ ∧ _ ∧ _))

/-- A deferrable transaction gets a safe snapshot only where that is safe, and the commit
timestamp of a serializable transaction is above what has been drawn for a start. -/
def SafeTxn (h : SnapshotHistory) : TxnStep → Prop
  | .begin isolation _ timedOut =>
      isolation.isDeferrable = true → timedOut = false →
        h.system.engine.ssiManager.hasActiveWriters = false → h.SnapshotSafe
  | .commit txnId physical =>
      ∀ txn ∈ h.system.unlocked txnId, txn.isolation = .serializable →
        ∀ ts ∈ h.started, ts < (h.system.engine.tsOracle.getTimestamp physical).1
  | _ => True

instance (h : SnapshotHistory) (action : TxnStep) : Decidable (h.SafeTxn action) := by
  cases action <;> unfold SafeTxn <;> infer_instance

/-- An update may take any step at any time. -/
def SafeStep (h : SnapshotHistory) : SnapshotStep → Prop
  | .txn action => h.SafeTxn action
  | _ => True

instance (h : SnapshotHistory) (action : SnapshotStep) : Decidable (h.SafeStep action) := by
  cases action <;> unfold SafeStep <;> infer_instance

/-! ## The invariant -/

/-- Some timestamp drawn for a start is not below. -/
def Bounded (h : SnapshotHistory) (ts : ℕ) : Prop := ∃ drawn ∈ h.started, ts ≤ drawn

/-- What a run keeps: the system's own invariants, every active transaction has a start
timestamp, and a store that is up to date is the minimum. -/
structure Sound (h : SnapshotHistory) : Prop where
  locked : h.system.Locked
  registered : h.system.engine.Registered
  committing : ∀ txnId progress, h.system.commits.lookup txnId = some progress →
    h.system.Known txnId
  active : ∀ txnId rw, h.system.engine.ssiManager.activeTxns.lookup txnId = some rw →
    ∃ startTs, h.system.engine.ssiManager.activeStartTs.lookup txnId = some startTs
  current : h.stored = some h.changes →
    h.system.engine.ssiManager.safeSnapshot = h.system.engine.ssiManager.minStartTs
  seen : ∀ update ∈ h.updates, update.began = h.changes → ∀ least ∈ update.least,
    least = h.system.engine.ssiManager.minStartTs
  counted : (∀ began ∈ h.stored, began ≤ h.changes) ∧
    ∀ update ∈ h.updates, update.began ≤ h.changes
  unused : h.system.engine.ssiManager.safeSnapshot = 0 ∧ h.updates = [] ∨ h.system.engine.Serializes
  starting : ∀ txnId isolation startTs lock,
    h.system.starting.lookup txnId = some (isolation, startTs, lock) → h.Bounded startTs
  activeStarts : ∀ txnId startTs,
    h.system.engine.ssiManager.activeStartTs.lookup txnId = some startTs → h.Bounded startTs
  returned : ∀ safeTs, .returned safeTs ∈ h.events → h.Bounded safeTs
  accepted : ∀ commitTs, .accepted commitTs ∈ h.events →
    commitTs ∈ h.system.engine.ssiManager.committedTxns ∧ h.system.engine.Serializes
  drawn : ∀ txnId commitTs rw, h.system.commits.lookup txnId = some (.drawn commitTs) →
    h.system.engine.ssiManager.activeTxns.lookup txnId = some rw →
      (∀ safeTs, .returned safeTs ∈ h.events → safeTs < commitTs) ∧
        ∃ startTs, h.system.engine.ssiManager.activeStartTs.lookup txnId = some startTs ∧
          startTs < commitTs
  ordered : h.events.Pairwise SnapshotEvent.InOrder

theorem sound_init (storage : Lsm) (config : LockConfig) : (init storage config).Sound where
  locked := TxnSystem.locked_init storage config
  registered := MvccEngine.registered_new storage
  committing := by
    intro txnId progress hprogress
    contradiction
  active := by
    intro txnId rw hrw
    contradiction
  current := by
    intro hstored
    contradiction
  seen := fun _ hmem => absurd hmem List.not_mem_nil
  counted := ⟨fun _ hstored => absurd hstored (Option.not_mem_none _),
    fun _ hmem => absurd hmem List.not_mem_nil⟩
  unused := Or.inl ⟨rfl, rfl⟩
  starting := by
    intro txnId isolation startTs lock hstarting
    contradiction
  activeStarts := by
    intro txnId startTs hstart
    contradiction
  returned := fun _ hmem => absurd hmem List.not_mem_nil
  accepted := fun _ hmem => absurd hmem List.not_mem_nil
  drawn := by
    intro txnId commitTs rw hprogress
    contradiction
  ordered := List.Pairwise.nil

section

variable {hashKey : Bytes → UInt64} {h : SnapshotHistory}

theorem Bounded.txn {ts : ℕ} (hbounded : h.Bounded ts) (action : TxnStep) :
    (h.txn hashKey action).Bounded ts := by
  obtain ⟨drawn, hmem, hle⟩ := hbounded
  exact ⟨drawn, List.mem_append_left _ hmem, hle⟩

theorem serializes_txn (hlocked : h.system.Locked) (hserializes : h.system.engine.Serializes)
    (action : TxnStep) : (h.txn hashKey action).system.engine.Serializes := by
  have hnext : (h.system.step hashKey action).engine.Serializes :=
    hserializes.evolves (TxnSystem.evolves_step hashKey hlocked action)
  exact hnext

/-- A safe snapshot that is got where that is safe is the least start, or nothing is there yet. -/
theorem Sound.of_safe (hsound : h.Sound) (hsafe : h.SnapshotSafe) :
    h.system.engine.ssiManager.safeSnapshot = 0 ∧ ¬h.system.engine.Serializes ∨
      h.system.engine.ssiManager.safeSnapshot = h.system.engine.ssiManager.minStartTs ∧
        ∃ e ∈ h.starts, e.2 = h.system.engine.ssiManager.safeSnapshot ∧
          ∀ commitTs ∈ h.system.engine.ssiManager.committedTxns, commitTs ≤ e.2 := by
  rcases hsafe with hunused | ⟨hstored, hactive, hcommitted⟩
  · exact Or.inl ⟨(hsound.unused.resolve_right hunused).1, hunused⟩
  · have hleast := hsound.current hstored
    obtain ⟨e, he, heq⟩ := SSIManager.minStartTs_mem hactive
    exact Or.inr ⟨hleast, e, he, heq.trans hleast.symm,
      fun commitTs hmem => hcommitted commitTs hmem e he⟩

/-- What is known when a wait for a safe snapshot ends in time. -/
theorem of_returned {action : TxnStep} (hready : h.SafeTxn action) {safeTs : ℕ}
    (hevent : h.system.eventBy action = some (.returned safeTs)) :
    ∃ isolation physical timedOut, action = .begin isolation physical timedOut ∧
      safeTs = h.system.engine.ssiManager.safeSnapshot ∧ h.SnapshotSafe := by
  cases action with
  | begin isolation physical timedOut =>
      refine ⟨isolation, physical, timedOut, rfl, ?_⟩
      rw [TxnSystem.eventBy] at hevent
      split at hevent
      · next hdeferrable =>
          unfold SSIManager.waitForSafeSnapshot at hevent
          split at hevent
          · contradiction
          · next hwait =>
              rw [Bool.or_eq_true, not_or, Bool.not_eq_true, Bool.not_eq_true] at hwait
              simp only [Option.map_some, Option.some.injEq, SnapshotEvent.returned.injEq] at hevent
              exact ⟨hevent.symm, hready hdeferrable hwait.1 hwait.2⟩
      · contradiction
  | continueCommit txnId order faults =>
      rw [TxnSystem.eventBy] at hevent
      split at hevent
      · split at hevent <;> simp at hevent
      · contradiction
  | _ => contradiction

/-- What is known when a validation accepts. -/
theorem of_accepted {action : TxnStep} {commitTs : ℕ}
    (hevent : h.system.eventBy action = some (.accepted commitTs)) :
    ∃ txnId order faults txn, action = .continueCommit txnId order faults ∧
      h.system.committing txnId = some (txn, .drawn commitTs) ∧ txn.isolation = .serializable ∧
        h.system.engine.ssiManager.accepts txn.id txn.startTs commitTs [] = true := by
  cases action with
  | begin isolation physical timedOut =>
      rw [TxnSystem.eventBy] at hevent
      split at hevent
      · cases hwait : h.system.engine.ssiManager.waitForSafeSnapshot timedOut <;>
          rw [hwait] at hevent <;> simp at hevent
      · contradiction
  | continueCommit txnId order faults =>
      rw [TxnSystem.eventBy] at hevent
      split at hevent
      · next txn commitTs' hcommitting =>
          split at hevent
          · next haccepts =>
              simp only [Option.some.injEq, SnapshotEvent.accepted.injEq] at hevent
              obtain rfl := hevent
              exact ⟨txnId, order, faults, txn, rfl, hcommitting, haccepts⟩
          · contradiction
      · contradiction
  | _ => contradiction

theorem mem_events_txn {action : TxnStep} {e : SnapshotEvent} :
    e ∈ (h.txn hashKey action).events ↔ e ∈ h.events ∨ h.system.eventBy action = some e := by
  unfold SnapshotHistory.txn
  rw [List.mem_append, Option.mem_toList]

/-- A safe snapshot is not above the timestamp that its own transaction has drawn before it
waited, or not above a start. -/
theorem Sound.returned_txn (hsound : h.Sound) {action : TxnStep} (hready : h.SafeTxn action)
    {safeTs : ℕ} (hmem : .returned safeTs ∈ (h.txn hashKey action).events) :
    (h.txn hashKey action).Bounded safeTs := by
  rcases mem_events_txn.mp hmem with hold | hnew
  · exact (hsound.returned safeTs hold).txn action
  · obtain ⟨isolation, physical, timedOut, rfl, rfl, hsafe⟩ := of_returned hready hnew
    rcases hsound.of_safe hsafe with ⟨hzero, -⟩ | ⟨-, e, he, heq, -⟩
    · rw [hzero]
      exact ⟨_, List.mem_append_right _ (List.mem_singleton_self _), Nat.zero_le _⟩
    · rw [← heq]
      exact (hsound.activeStarts e.1 e.2 (AList.mem_lookup_iff.mpr he)).txn _

theorem Sound.starting_txn (hsound : h.Sound) {action : TxnStep} (hready : h.SafeTxn action)
    {txnId startTs : ℕ} {isolation : IsolationLevel} {lock : LockCall}
    (hstarting : (h.txn hashKey action).system.starting.lookup txnId =
      some (isolation, startTs, lock)) : (h.txn hashKey action).Bounded startTs := by
  rcases TxnSystem.starting_step hstarting with ⟨lock', hold⟩ | ⟨physical, timedOut, rfl, -, rfl⟩
  · exact (hsound.starting txnId isolation startTs lock' hold).txn action
  · -- the timestamp is the one just drawn, or the safe snapshot instead
    have hstart : (h.system.engine.drawStartTs isolation physical timedOut).1.2 =
        (if isolation.isDeferrable then
          h.system.engine.ssiManager.waitForSafeSnapshot timedOut else none).getD
            (h.system.engine.tsOracle.getTimestamp physical).1 := rfl
    rw [hstart]
    cases hsafe : (if isolation.isDeferrable then
        h.system.engine.ssiManager.waitForSafeSnapshot timedOut else none) with
    | none => exact ⟨_, List.mem_append_right _ (List.mem_singleton_self _), le_rfl⟩
    | some safeTs =>
        apply hsound.returned_txn hready
        rw [mem_events_txn, TxnSystem.eventBy]
        right
        split at hsafe
        · next hdeferrable =>
            rw [if_pos hdeferrable, hsafe]
            rfl
        · contradiction

/-- A commit that is accepted is among the committed transactions. -/
theorem Sound.accepted_txn (hsound : h.Sound)
    {action : TxnStep} {commitTs : ℕ}
    (hmem : .accepted commitTs ∈ (h.txn hashKey action).events) :
    commitTs ∈ (h.txn hashKey action).system.engine.ssiManager.committedTxns ∧
      (h.txn hashKey action).system.engine.Serializes := by
  have hkeeps : h.system.KeepsStarts (h.system.step hashKey action).engine :=
    TxnSystem.keepsStarts_step hsound.locked hsound.registered action
  rcases mem_events_txn.mp hmem with hold | hnew
  · obtain ⟨hcommitted, hserializes⟩ := hsound.accepted commitTs hold
    exact ⟨hkeeps.committed commitTs hcommitted, serializes_txn hsound.locked hserializes action⟩
  · obtain ⟨txnId, order, faults, txn, rfl, hcommitting, hserializable, haccepts⟩ :=
      of_accepted hnew
    have hlookup := TxnSystem.lookup_of_committing hcommitting
    have hserializes : h.system.engine.Serializes :=
      MvccEngine.serializes_of_lookup hlookup (by rw [hserializable]; rfl)
    refine ⟨?_, serializes_txn hsound.locked hserializes _⟩
    have hwrites : ¬txn.isolation.isReadOnly = true := by
      rw [hserializable]
      decide
    have hengine : (h.system.step hashKey (.continueCommit txnId order faults)).engine.ssiManager =
        (h.system.engine.ssiManager.validateAndCommit txn.id txn.startTs commitTs).2 := by
      rw [TxnSystem.step, hcommitting]
      simp only [TxnSystem.engine_proceed]
      rw [commitStep_drawn, MvccSystem.commitNext, if_neg hwrites, exec_bind_pure,
        MvccEngine.exec_validateSsi _ commitTs hserializable]
    obtain ⟨-, hrefused | ⟨-, hcommitted, -⟩⟩ :=
      h.system.engine.ssiManager.validateAndCommit_cases txn.id txn.startTs commitTs
    · rw [haccepts] at hrefused
      contradiction
    · show commitTs ∈ (h.system.step hashKey _).engine.ssiManager.committedTxns
      rw [hengine]
      exact hcommitted

/-- A commit that has just drawn its timestamp is above everything drawn for a start; a safe
snapshot that is got later is not above the start of its transaction, which is active. -/
theorem Sound.drawn_txn (hsound : h.Sound) {action : TxnStep} (hready : h.SafeTxn action)
    {txnId commitTs : ℕ} {rw' : ReadWriteSet}
    (hcommit : (h.txn hashKey action).system.commits.lookup txnId = some (.drawn commitTs))
    (hactive : (h.txn hashKey action).system.engine.ssiManager.activeTxns.lookup txnId =
      some rw') :
    (∀ safeTs, .returned safeTs ∈ (h.txn hashKey action).events → safeTs < commitTs) ∧
      ∃ startTs, (h.txn hashKey action).system.engine.ssiManager.activeStartTs.lookup txnId =
        some startTs ∧ startTs < commitTs := by
  have hkeeps : h.system.KeepsStarts (h.system.step hashKey action).engine :=
    TxnSystem.keepsStarts_step hsound.locked hsound.registered action
  have hknown : h.system.Known txnId := by
    cases hold : h.system.commits.lookup txnId with
    | none =>
        obtain ⟨physical, txn, -, hunlocked, -⟩ := TxnSystem.commit_of_none hold hcommit
        exact ⟨txn, TxnSystem.lookup_of_unlocked hunlocked⟩
    | some progress => exact hsound.committing txnId progress hold
  obtain ⟨txn, hlookup⟩ := hknown
  obtain ⟨⟨rw, hrw⟩, hsame⟩ := (hkeeps.active txnId rw' hactive).resolve_right
    fun hnew => hnew.1 ⟨txn, hlookup⟩
  -- the transaction was active before the step, with the same start
  obtain ⟨startTs, hstart⟩ := hsound.active txnId rw hrw
  have hstart' : (h.txn hashKey action).system.engine.ssiManager.activeStartTs.lookup txnId =
      some startTs := hsame.trans hstart
  rcases TxnSystem.drawn_step hsound.locked hlookup hcommit with
    hold | ⟨physical, rfl, hunlocked, rfl⟩
  · obtain ⟨hreturned, startTs', hstart'', hlt⟩ := hsound.drawn txnId commitTs rw hold hrw
    obtain rfl := Option.some.inj (hstart.symm.trans hstart'')
    refine ⟨fun safeTs hmem => ?_, startTs, hstart', hlt⟩
    rcases mem_events_txn.mp hmem with hbefore | hnew
    · exact hreturned safeTs hbefore
    · obtain ⟨isolation, physical, timedOut, rfl, rfl, hsafe⟩ := of_returned hready hnew
      rcases hsound.of_safe hsafe with ⟨-, hunused⟩ | ⟨hleast, -⟩
      · obtain ⟨txn', hlookup', hserializable⟩ := hsound.registered.activeTxns txnId rw hrw
        exact absurd (MvccEngine.serializes_of_lookup hlookup' (by rw [hserializable]; rfl)) hunused
      · rw [hleast]
        -- the safe snapshot is the least active start
        exact (SSIManager.minStartTs_le hstart).trans_lt hlt
  · obtain ⟨txn', hlookup', hserializable⟩ := hsound.registered.activeTxns txnId rw hrw
    obtain rfl := Option.some.inj (hlookup.symm.trans hlookup')
    -- the timestamp has been drawn in this step, above all that was drawn for a start
    have habove : ∀ {ts : ℕ}, h.Bounded ts →
        ts < (h.system.engine.tsOracle.getTimestamp physical).1 := by
      rintro ts ⟨drawn, hmem, hle⟩
      exact hle.trans_lt (hready txn hunlocked hserializable drawn hmem)
    refine ⟨fun safeTs hmem => ?_, startTs, hstart', habove (hsound.activeStarts txnId startTs hstart)⟩
    rcases mem_events_txn.mp hmem with hbefore | hnew
    · exact habove (hsound.returned safeTs hbefore)
    · contradiction

theorem Sound.ordered_txn (hsound : h.Sound) {action : TxnStep} (hready : h.SafeTxn action) :
    (h.txn hashKey action).events.Pairwise SnapshotEvent.InOrder := by
  unfold SnapshotHistory.txn
  rw [List.pairwise_append]
  refine ⟨hsound.ordered, ?_, ?_⟩
  · cases h.system.eventBy action with
    | none => exact List.Pairwise.nil
    | some e => exact List.pairwise_singleton _ _
  · intro e he e' he'
    rw [Option.mem_toList] at he'
    -- what is returned is at least the commits accepted before it
    cases e' with
    | returned safeTs =>
        cases e with
        | returned safeTs' => trivial
        | accepted commitTs =>
            obtain ⟨isolation, physical, timedOut, -, rfl, hsafe⟩ := of_returned hready he'
            obtain ⟨hcommitted, hserializes⟩ := hsound.accepted commitTs he
            rcases hsound.of_safe hsafe with ⟨-, hunused⟩ | ⟨-, e, -, heq, hall⟩
            · -- nothing serializable has begun, so nothing has been accepted
              exact absurd hserializes hunused
            · show commitTs ≤ _
              rw [← heq]
              exact hall commitTs hcommitted
    | accepted commitTs =>
        cases e with
        | accepted commitTs' => trivial
        | returned safeTs =>
            obtain ⟨txnId, order, faults, txn, -, hcommitting, -, haccepts⟩ := of_accepted he'
            obtain rfl := hsound.locked.ids txnId txn (TxnSystem.lookup_of_committing hcommitting)
            obtain ⟨-, hrefused | ⟨-, -, rw, hrw⟩⟩ :=
              h.system.engine.ssiManager.validateAndCommit_cases txn.id txn.startTs commitTs
            · rw [haccepts] at hrefused
              contradiction
            · -- the first stage of the commit was above the safe snapshots before it
              exact (hsound.drawn txn.id commitTs rw
                (TxnSystem.commits_of_committing hcommitting) hrw).1 safeTs he

theorem locked_withSafeSnapshot {system : TxnSystem} (hlocked : system.Locked) (safeTs : ℕ) :
    (system.withSafeSnapshot safeTs).Locked :=
  { onlyX := hlocked.onlyX, single := hlocked.single, ids := hlocked.ids, fresh := hlocked.fresh
    held := hlocked.held, starting := hlocked.starting, calls := hlocked.calls }

theorem registered_withSafeSnapshot {system : TxnSystem} (hregistered : system.engine.Registered)
    (safeTs : ℕ) : (system.withSafeSnapshot safeTs).engine.Registered :=
  { activeTxns := hregistered.activeTxns, activeStartTs := hregistered.activeStartTs
    readOnlyTxns := hregistered.readOnlyTxns, nodup := hregistered.nodup }

/-- The starts are as they were, or a change has been counted. -/
theorem changes_txn (hashKey : Bytes → UInt64) (h : SnapshotHistory) (action : TxnStep) :
    (h.txn hashKey action).changes = h.changes ∧
        (h.txn hashKey action).system.engine.ssiManager.minStartTs =
          h.system.engine.ssiManager.minStartTs ∨
      (h.txn hashKey action).changes = h.changes + 1 := by
  by_cases hsame :
      (h.system.step hashKey action).engine.ssiManager.activeStartTs.entries = h.starts
  · refine Or.inl ⟨if_pos hsame, ?_⟩
    show (((h.system.step hashKey action).engine.ssiManager.activeStartTs.entries.map
      Sigma.snd).min?).getD _ = _
    rw [hsame]
    rfl
  · exact Or.inr (if_neg hsame)

theorem Sound.txn (hsound : h.Sound) {action : TxnStep} (hready : h.SafeTxn action) :
    (h.txn hashKey action).Sound := by
  have hkeeps : h.system.KeepsStarts (h.system.step hashKey action).engine :=
    TxnSystem.keepsStarts_step hsound.locked hsound.registered action
  have hchanges := changes_txn hashKey h action
  obtain ⟨hstored, hupdates⟩ := hsound.counted
  exact
    { locked := locked_withSafeSnapshot (hsound.locked.step hashKey action) _
      registered :=
        registered_withSafeSnapshot
          (TxnSystem.registered_step hsound.locked hsound.registered action) _
      committing := by
        intro txnId progress hprogress
        refine TxnSystem.known_step hsound.locked ?_ action
        cases hold : h.system.commits.lookup txnId with
        | none =>
            obtain ⟨physical, txn, -, hunlocked, -⟩ := TxnSystem.commit_of_none hold hprogress
            exact ⟨txn, TxnSystem.lookup_of_unlocked hunlocked⟩
        | some progress' => exact hsound.committing txnId progress' hold
      active := by
        intro txnId rw' hactive
        -- what is active was so before, or its start has just come in
        rcases hkeeps.active txnId rw' hactive with ⟨⟨rw, hrw⟩, hsame⟩ | ⟨-, hnew⟩
        · obtain ⟨startTs, hstart⟩ := hsound.active txnId rw hrw
          exact ⟨startTs, hsame.trans hstart⟩
        · exact hnew
      current := by
        intro hcurrent
        rcases hchanges with ⟨hsame, hleast⟩ | hnew
        · rw [hleast]
          exact hsound.current (hcurrent.trans (congrArg some hsame))
        · -- what has been stored is older than the change
          have hle : h.changes + 1 ≤ h.changes := hstored _ (hcurrent.trans (congrArg some hnew))
          omega
      seen := by
        intro update hmem hbegan least hsome
        rcases hchanges with ⟨hsame, hleast⟩ | hnew
        · rw [hleast]
          exact hsound.seen update hmem (hbegan.trans hsame) least hsome
        -- and what an update has seen is older too
        · have hle : update.began ≤ h.changes := hupdates update hmem
          omega
      counted := by
        have hle : h.changes ≤ (h.txn hashKey action).changes := by
          rcases hchanges with ⟨hsame, -⟩ | hnew <;> omega
        exact ⟨fun began hbegan => (hstored began hbegan).trans hle,
          fun update hmem => (hupdates update hmem).trans hle⟩
      unused := hsound.unused.imp_right fun hserializes =>
        serializes_txn hsound.locked hserializes action
      starting := fun _ _ _ _ hstarting => hsound.starting_txn hready hstarting
      activeStarts := by
        intro txnId startTs hstart
        rcases hkeeps.startTs txnId startTs hstart with hold | ⟨isolation, lock, hstarting⟩
        · exact (hsound.activeStarts txnId startTs hold).txn action
        · exact (hsound.starting txnId isolation startTs lock hstarting).txn action
      returned := fun _ hmem => hsound.returned_txn hready hmem
      accepted := fun _ hmem => hsound.accepted_txn hmem
      drawn := fun _ _ _ hcommit hactive => hsound.drawn_txn hready hcommit hactive
      ordered := hsound.ordered_txn hready }

theorem Sound.beginUpdate (hsound : h.Sound) : h.beginUpdate.Sound := by
  unfold SnapshotHistory.beginUpdate
  split
  · next hserializes =>
      refine { hsound with seen := ?_, counted := ⟨hsound.counted.1, ?_⟩, unused := Or.inr hserializes }
      · intro update hmem hbegan least hsome
        rcases List.mem_append.mp hmem with hold | hnew
        · exact hsound.seen update hold hbegan least hsome
        · rw [List.mem_singleton.mp hnew] at hsome
          contradiction
      · intro update hmem
        rcases List.mem_append.mp hmem with hold | hnew
        · exact hsound.counted.2 update hold
        · rw [List.mem_singleton.mp hnew]
  · exact hsound

/-- An update that has been through the starts while they did not change has seen the least. -/
theorem Sound.readStarts (hsound : h.Sound) (i seen : ℕ) : (h.readStarts i seen).Sound := by
  unfold SnapshotHistory.readStarts
  split
  · next began hupdate =>
      have hold : { began, least := none } ∈ h.updates := List.mem_of_getElem? hupdate
      have hserializes : h.system.engine.Serializes :=
        hsound.unused.resolve_left fun hnil => List.ne_nil_of_mem hold hnil.2
      refine { hsound with seen := ?_, counted := ⟨hsound.counted.1, ?_⟩, unused := Or.inr hserializes }
      · intro update hmem hbegan least hsome
        rcases List.mem_or_eq_of_mem_set hmem with hmem | rfl
        · exact hsound.seen update hmem hbegan least hsome
        · rw [if_pos hbegan] at hsome
          exact (Option.some.inj hsome).symm
      · intro update hmem
        rcases List.mem_or_eq_of_mem_set hmem with hmem | rfl
        · exact hsound.counted.2 update hmem
        · exact (hsound.counted.2 _ hold : began ≤ h.changes)
  · exact hsound

theorem Sound.storeSafe (hsound : h.Sound) (i : ℕ) : (h.storeSafe i).Sound := by
  unfold SnapshotHistory.storeSafe
  split
  · next began least hupdate =>
      have hold : { began, least := some least } ∈ h.updates := List.mem_of_getElem? hupdate
      have hserializes : h.system.engine.Serializes :=
        hsound.unused.resolve_left fun hnil => List.ne_nil_of_mem hold hnil.2
      exact
        { hsound with
          locked := locked_withSafeSnapshot hsound.locked _
          registered := registered_withSafeSnapshot hsound.registered _
          current := fun hcurrent =>
            hsound.seen _ hold (Option.some.inj hcurrent) least rfl
          seen := fun update hmem => hsound.seen update (List.mem_of_mem_eraseIdx hmem)
          counted := by
            refine ⟨?_, fun update hmem => hsound.counted.2 update (List.mem_of_mem_eraseIdx hmem)⟩
            intro began' hbegan'
            obtain rfl := Option.some.inj hbegan'
            exact hsound.counted.2 _ hold
          unused := Or.inr hserializes }
  · exact hsound

theorem Sound.step (hsound : h.Sound) {action : SnapshotStep} (hready : h.SafeStep action) :
    (h.step hashKey action).Sound := by
  cases action with
  | txn action => exact hsound.txn hready
  | beginUpdate => exact hsound.beginUpdate
  | readStarts i seen => exact hsound.readStarts i seen
  | storeSafe i => exact hsound.storeSafe i

end

/-- In every run in which safe snapshots are got where that is safe, and the timestamps of commits
are above those of starts, each safe snapshot lies between the commits before it and after it. -/
theorem separates_run (hashKey : Bytes → UInt64) (storage : Lsm) (config : LockConfig)
    (steps : List SnapshotStep)
    (hsteps : Run.Along (step hashKey) SafeStep (init storage config) steps) :
    (Run.run (step hashKey) (init storage config) steps).events.Pairwise SnapshotEvent.InOrder := by
  have hsound : (Run.run (step hashKey) (init storage config) steps).Sound :=
    hsteps.invariant Sound (fun _ _ hsound hready => hsound.step hready)
      (sound_init storage config)
  exact hsound.ordered

/-! ## Whole updates -/

/-- An update that no other step comes between; `i` others are under way. -/
def wholeUpdate (i : ℕ) : List SnapshotStep := [.beginUpdate, .readStarts i 0, .storeSafe i]

/-- It does what `updateSafeSnapshot` does. -/
theorem ssiManager_wholeUpdate (hashKey : Bytes → UInt64) {h : SnapshotHistory}
    (hserializes : h.system.engine.Serializes) :
    (Run.run (step hashKey) h (wholeUpdate h.updates.length)).system.engine.ssiManager =
      h.system.engine.ssiManager.updateSafeSnapshot := by
  simp only [wholeUpdate, Run.run_cons, Run.run_nil, step]
  rw [beginUpdate, if_pos hserializes, readStarts]
  simp only [List.getElem?_concat_length, if_true, storeSafe]
  simp only [List.getElem?_set, List.length_append, List.length_singleton, if_true,
    Nat.lt_succ_self]
  rfl

/-- The runs of the examples, with the first byte of a key as its hash. -/
def runOf (steps : List SnapshotStep) : SnapshotHistory :=
  Run.run (step fun key => key.headD 0 |>.toUInt64)
    (init (Lsm.openDir 100 Dir.empty) LockConfig.default) steps

/-- `begin` with its three steps. -/
def beginAt (isolation : IsolationLevel) (txnId physical : ℕ) : List TxnStep :=
  .begin isolation physical false :: List.replicate 3 (.continueBegin txnId .next)

/-- A commit up to its validation. -/
def validateAt (txnId physical : ℕ) : List TxnStep :=
  [.commit txnId physical, .continueCommit txnId .inserted noFaults]

/-- A call, and the update at its end. -/
def updated (i : ℕ) (steps : List TxnStep) : List SnapshotStep := steps.map .txn ++ wholeUpdate i

/-- The third transaction gets its snapshot while the second is active. -/
def betweenCommits : List SnapshotStep :=
  updated 0 (beginAt .serializable 1 1) ++ updated 0 (validateAt 1 2) ++
    updated 0 (beginAt .serializable 2 3) ++ updated 0 (beginAt .serializableDeferrable 3 4) ++
      updated 0 (validateAt 2 5)

theorem separates_betweenCommits :
    (runOf betweenCommits).events =
        [.accepted (2 <<< 18), .returned (3 <<< 18), .accepted (5 <<< 18)] ∧
      (runOf betweenCommits).events.Pairwise SnapshotEvent.InOrder :=
  ⟨by decide +kernel, separates_run _ _ _ betweenCommits (by decide +kernel)⟩

/-- The second transaction gets its snapshot with nothing active, and the third is accepted
later. -/
def afterCommits : List SnapshotStep :=
  updated 0 (beginAt .serializable 1 1) ++ updated 0 (validateAt 1 2) ++
    updated 0 (beginAt .serializableDeferrable 2 3) ++ updated 0 (beginAt .serializable 3 4) ++
      updated 0 (validateAt 3 5)

theorem not_separates_afterCommits :
    (runOf afterCommits).events =
        [.accepted (2 <<< 18), .returned (2 ^ 64 - 1), .accepted (5 <<< 18)] ∧
      ¬(runOf afterCommits).events.Pairwise SnapshotEvent.InOrder := by
  have hevents : (runOf afterCommits).events =
      [.accepted (2 <<< 18), .returned (2 ^ 64 - 1), .accepted (5 <<< 18)] := by decide +kernel
  refine ⟨hevents, ?_⟩
  rw [hevents]
  decide

/-- The second transaction is aborted while the first is active, and its update stores the start
of the first after the first has been accepted and the third has begun. -/
def lateStore : List SnapshotStep :=
  updated 0 (beginAt .serializable 1 1) ++ updated 0 (beginAt .serializable 2 2) ++
    [.txn (.abort 2), .txn (.advance 0 .next), .beginUpdate, .readStarts 0 0] ++
      updated 1 (validateAt 1 3) ++ updated 1 (beginAt .serializable 3 4) ++ [.storeSafe 0] ++
        (beginAt .serializableDeferrable 4 5).map .txn

theorem not_separates_lateStore :
    (runOf lateStore).events = [.accepted (3 <<< 18), .returned (1 <<< 18)] ∧
      ¬(runOf lateStore).events.Pairwise SnapshotEvent.InOrder := by
  have hevents : (runOf lateStore).events =
      [.accepted (3 <<< 18), .returned (1 <<< 18)] := by decide +kernel
  refine ⟨hevents, ?_⟩
  rw [hevents]
  decide

end SnapshotHistory
end Crabstash

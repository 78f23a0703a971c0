import Crabstash.Txn.DirtyWrites

/-!
# Lost updates

Two transactions that both write a key and both commit, neither of which had committed when
the other began: the second has not seen what it replaces.  The lock of the key keeps them
apart only until the first commits.  The second may get the lock then, and `prepare_commit`
looks at the committed transactions for a serializable transaction only, and even then at
what it has read.

`CommitHistory` records beside the run what every transaction that commits has in its write
set, and which transactions had committed when another began.  If no key comes into a write
set that a transaction committed since has written (`FreshStep`), no update is lost: between
this moment and its own commit the transaction holds the lock, so that nobody else commits
the key.
-/

namespace Crabstash

open Crabstash.Action

namespace TxnSystem

/-! ## Which key comes into which write set -/

/-- The transaction into whose write set a step puts a key. -/
def storedBy (s : TxnSystem) : TxnStep → Option (ℕ × Bytes)
  | .advance callId _ =>
      match s.calls.lookup callId with
      | some (.store txnId op) => some (txnId, op.key)
      | _ => none
  | _ => none

@[simp] theorem engine_proceed (s : TxnSystem) (txnId : ℕ)
    (result : Except Error (Option CommitProgress) × MvccEngine) :
    (s.proceed txnId result).engine = result.2 := by
  obtain ⟨result, engine⟩ := result
  cases result with
  | error e => rfl
  | ok progress => cases progress <;> rfl

theorem evolves_advance {hashKey : Bytes → UInt64} {s s' : TxnSystem} (h : s.Locked) {callId : ℕ}
    {choice : LockChoice} {call : EngineCall} (hcall : s.calls.lookup callId = some call)
    (heffect : AdvanceEffect hashKey s callId choice call s') :
    MvccEngine.Evolves s.engine s'.engine
      fun txnId key => s.storedBy (.advance callId choice) = some (txnId, key) := by
  cases heffect with
  | granted => exact MvccEngine.evolves_of_txns_eq rfl
  | refused => exact MvccEngine.evolves_of_txns_eq rfl
  | locks => exact MvccEngine.evolves_of_txns_eq rfl
  | @records txnId isolation op =>
      apply MvccEngine.evolves_of_txns_eq
      show (s.engine.recordWrite hashKey txnId isolation op.key).txns = s.engine.txns
      unfold MvccEngine.recordWrite
      split <;> rfl
  | blocked => exact MvccEngine.evolves_of_txns_eq rfl
  | @stores txnId op txn hunlocked =>
      have hlookup := lookup_of_unlocked hunlocked
      obtain rfl := h.ids txnId txn hlookup
      obtain ⟨hknown, hnew⟩ := MvccEngine.evolves_storeWrite hlookup op
      refine ⟨fun txnId' txn' hlookup' => ?_, hnew⟩
      obtain ⟨txn'', hlookup'', hid, hisolation, hactive, hkeys⟩ := hknown txnId' txn' hlookup'
      refine ⟨txn'', hlookup'', hid, hisolation, hactive, fun key hkey => ?_⟩
      rcases hkeys key hkey with hkey | ⟨rfl, rfl⟩
      · exact Or.inl hkey
      · exact Or.inr (by rw [storedBy, hcall])
  | @aborts txnId isolation =>
      apply MvccEngine.evolves_of_txns_eq
      show (s.engine.ssiAbort txnId isolation).txns = s.engine.txns
      unfold MvccEngine.ssiAbort
      split <;> rfl
  | released => exact MvccEngine.evolves_of_txns_eq rfl
  | releases => exact MvccEngine.evolves_of_txns_eq rfl

/-- The transactions after a step. -/
theorem evolves_step (hashKey : Bytes → UInt64) {s : TxnSystem} (h : s.Locked)
    (action : TxnStep) :
    MvccEngine.Evolves s.engine (s.step hashKey action).engine
      fun txnId key => s.storedBy action = some (txnId, key) := by
  have heffect := s.step_effect hashKey action
  generalize s.step hashKey action = s' at heffect ⊢
  cases heffect with
  | nothing => exact MvccEngine.evolves_of_txns_eq rfl
  | draws => exact MvccEngine.evolves_of_txns_eq rfl
  | @registers txnId startTs isolation lock _ _ hstarting =>
      obtain ⟨-, hunknown, -⟩ := h.starting txnId isolation startTs lock hstarting
      refine MvccEngine.evolves_register ?_ isolation startTs
      by_contra hsome
      exact hunknown (Option.ne_none_iff_exists'.mp hsome)
  | starts => exact MvccEngine.evolves_of_txns_eq rfl
  | @gets txnId txn hunlocked key =>
      have hlookup := lookup_of_unlocked hunlocked
      obtain rfl := h.ids txnId txn hlookup
      exact (MvccEngine.keeps_get hashKey s.engine txn key).evolves hlookup
  | writes => exact MvccEngine.evolves_of_txns_eq rfl
  | commits => exact MvccEngine.evolves_of_txns_eq rfl
  | @proceeds txnId txn progress order faults hcommitting =>
      have hlookup := lookup_of_committing hcommitting
      obtain rfl := h.ids txnId txn hlookup
      rw [engine_proceed]
      exact (MvccEngine.keeps_commitStep faults order s.engine txn progress).evolves hlookup
  | @aborts txnId txn hunlocked =>
      have hlookup := lookup_of_unlocked hunlocked
      obtain rfl := h.ids txnId txn hlookup
      exact (MvccEngine.keeps_managerAbort s.engine txn).evolves hlookup
  | advances hcall hadvance => exact evolves_advance h hcall hadvance
  | onStorage => exact MvccEngine.evolves_of_txns_eq rfl

/-- A transaction that has ended stays so. -/
theorem ended_step (hashKey : Bytes → UInt64) {s : TxnSystem} (h : s.Locked) (action : TxnStep)
    {txnId : ℕ} (hended : s.Ended txnId) : (s.step hashKey action).Ended txnId := by
  obtain ⟨txn, hlookup, hnot⟩ := hended
  obtain ⟨txn', hlookup', -, -, hactive, -⟩ :=
    (evolves_step hashKey h action).known txnId txn hlookup
  exact ⟨txn', hlookup', fun hactive' => hnot (hactive hactive')⟩

/-! ## Commits -/

/-- The transaction that a step commits, with the keys it has written. -/
def committedBy (s : TxnSystem) : TxnStep → Option (ℕ × List Bytes)
  | .continueCommit txnId order faults =>
      match s.committing txnId with
      | none => none
      | some (txn, progress) =>
          match (exec (commitStep faults order txn progress) s.engine).1 with
          | .ok none => some (txnId, txn.writeSet.writeKeys)
          | _ => none
  | _ => none

theorem of_committedBy (hashKey : Bytes → UInt64) {s : TxnSystem} (h : s.Locked)
    {action : TxnStep} {txnId : ℕ} {keys : List Bytes}
    (hcommitted : s.committedBy action = some (txnId, keys)) :
    (∃ txn, s.engine.txns.lookup txnId = some txn ∧ txn.state = .active ∧
      keys = txn.writeSet.writeKeys) ∧ (s.step hashKey action).Ended txnId := by
  cases action with
  | continueCommit txnId' order faults =>
      rw [committedBy] at hcommitted
      split at hcommitted
      · contradiction
      · next txn progress hcommitting =>
          split at hcommitted
          · next hresult =>
              obtain ⟨rfl, rfl⟩ := Prod.mk.inj (Option.some.inj hcommitted)
              have hlookup := lookup_of_committing hcommitting
              obtain rfl := h.ids txnId' txn hlookup
              have hcommits := MvccEngine.commits_commitStep hresult
              refine ⟨⟨txn, hlookup, hcommits.active, rfl⟩, ?_⟩
              refine ⟨{ txn with state := .committed }, ?_, TransactionState.noConfusion⟩
              rw [step, hcommitting]
              simp only
              rw [engine_proceed, hcommits.txns, AList.lookup_insert]
          · contradiction
  | _ => contradiction

/-- A step that commits puts nothing into a write set. -/
theorem storedBy_of_committedBy {s : TxnSystem} {action : TxnStep} {commit : ℕ × List Bytes}
    (hcommitted : s.committedBy action = some commit) : s.storedBy action = none := by
  cases action with
  | continueCommit txnId order faults => rfl
  | _ => contradiction

end TxnSystem

/-- The system, with what every committed transaction wrote, and the transactions that had
committed when another began. -/
structure CommitHistory where
  system : TxnSystem
  committed : HashMap ℕ (List Bytes)
  before : HashMap ℕ (List ℕ)

namespace CommitHistory

/-- No transaction has begun. -/
def init (storage : Lsm) (config : LockConfig) : CommitHistory :=
  { system := TxnSystem.init storage config, committed := ∅, before := ∅ }

/-- Who had committed when the transaction began. -/
def committedBefore (h : CommitHistory) (txnId : ℕ) : List ℕ := (h.before.lookup txnId).getD []

/-- The system after the step, with what the history notes of it. -/
def step (hashKey : Bytes → UInt64) (h : CommitHistory) (action : TxnStep) : CommitHistory :=
  { system := h.system.step hashKey action
    committed :=
      match h.system.committedBy action with
      | some (txnId, keys) => h.committed.insert txnId keys
      | none => h.committed
    before :=
      match action with
      | .begin _ _ _ => h.before.insert h.system.engine.nextTxnId h.committed.keys
      | _ => h.before }

/-- Of two transactions that committed the same key, one had committed when the other
began. -/
def NoLostUpdate (h : CommitHistory) : Prop :=
  ∀ txnId txnId' keys keys', txnId ≠ txnId' → h.committed.lookup txnId = some keys →
    h.committed.lookup txnId' = some keys' → ∀ key ∈ keys, key ∈ keys' →
      txnId ∈ h.committedBefore txnId' ∨ txnId' ∈ h.committedBefore txnId

/-- Where a key comes into the write set of an active transaction, the transactions that
committed it had done so when this one began. -/
def FreshStep (h : CommitHistory) (action : TxnStep) : Prop :=
  ∀ stored ∈ h.system.storedBy action,
    (∃ txn ∈ h.system.engine.txns.lookup stored.1, txn.state = .active) →
      ∀ e ∈ h.committed.entries, stored.2 ∈ e.2 → e.1 ∈ h.committedBefore stored.1

instance (h : CommitHistory) (action : TxnStep) : Decidable (h.FreshStep action) :=
  inferInstanceAs (Decidable (∀ stored ∈ h.system.storedBy action,
    (∃ txn ∈ h.system.engine.txns.lookup stored.1, txn.state = .active) →
      ∀ e ∈ h.committed.entries, stored.2 ∈ e.2 → e.1 ∈ h.committedBefore stored.1))

/-- What carries it: all that has committed a key in the write set of an active transaction
had done so when this one began. -/
structure Ordered (h : CommitHistory) : Prop where
  locked : h.system.Locked
  ended : ∀ txnId keys, h.committed.lookup txnId = some keys → h.system.Ended txnId
  behind : ∀ txnId txn, h.system.engine.txns.lookup txnId = some txn → txn.state = .active →
    ∀ key ∈ txn.writeSet.writeKeys, ∀ other keys, h.committed.lookup other = some keys →
      key ∈ keys → other ∈ h.committedBefore txnId
  noLostUpdate : h.NoLostUpdate

theorem ordered_init (storage : Lsm) (config : LockConfig) : (init storage config).Ordered where
  locked := TxnSystem.locked_init storage config
  ended := by
    intro txnId keys hlookup
    contradiction
  behind := by
    intro txnId txn hlookup
    contradiction
  noLostUpdate := by
    intro txnId txnId' keys keys' hne hlookup
    contradiction

section

variable {h : CommitHistory} (hashKey : Bytes → UInt64)

theorem committedBefore_step (hordered : h.Ordered) (action : TxnStep) {txnId : ℕ}
    (hknown : h.system.Known txnId) :
    (h.step hashKey action).committedBefore txnId = h.committedBefore txnId := by
  unfold committedBefore step
  cases action with
  | begin isolation physical timedOut =>
      have hne : txnId ≠ h.system.engine.nextTxnId := by
        rintro rfl
        exact hordered.locked.fresh _ le_rfl hknown
      show ((h.before.insert _ _).lookup txnId).getD [] = _
      rw [AList.lookup_insert_ne hne]
  | _ => rfl

/-- What has committed after a step: what had before, or the transaction of the step. -/
theorem committed_step {action : TxnStep} {txnId : ℕ} {keys : List Bytes}
    (hlookup : (h.step hashKey action).committed.lookup txnId = some keys) :
    h.committed.lookup txnId = some keys ∨ h.system.committedBy action = some (txnId, keys) := by
  unfold step at hlookup
  cases hcommitted : h.system.committedBy action with
  | none =>
      rw [hcommitted] at hlookup
      exact Or.inl hlookup
  | some commit =>
      obtain ⟨txnId', keys'⟩ := commit
      rw [hcommitted] at hlookup
      have hlookup : (h.committed.insert txnId' keys').lookup txnId = some keys := hlookup
      by_cases heq : txnId = txnId'
      · rw [heq, AList.lookup_insert] at hlookup
        rw [heq, Option.some.inj hlookup]
        exact Or.inr rfl
      · rw [AList.lookup_insert_ne heq] at hlookup
        exact Or.inl hlookup

theorem Ordered.ended_step (hordered : h.Ordered) (action : TxnStep) {txnId : ℕ}
    {keys : List Bytes} (hlookup : (h.step hashKey action).committed.lookup txnId = some keys) :
    (h.step hashKey action).system.Ended txnId := by
  rcases committed_step hashKey hlookup with hold | hcommitted
  · exact TxnSystem.ended_step hashKey hordered.locked action (hordered.ended txnId keys hold)
  · exact (TxnSystem.of_committedBy hashKey hordered.locked hcommitted).2

theorem Ordered.behind_step (hordered : h.Ordered) {action : TxnStep} (hfresh : h.FreshStep action)
    {txnId : ℕ} {txn' : Transaction}
    (hlookup' : (h.step hashKey action).system.engine.txns.lookup txnId = some txn')
    (hactive' : txn'.state = .active) {key : Bytes} (hkey : key ∈ txn'.writeSet.writeKeys)
    {other : ℕ} {keys : List Bytes}
    (hother : (h.step hashKey action).committed.lookup other = some keys) (hin : key ∈ keys) :
    other ∈ (h.step hashKey action).committedBefore txnId := by
  have hevolves := TxnSystem.evolves_step hashKey hordered.locked action
  cases hlookup : h.system.engine.txns.lookup txnId with
  | none =>
      -- a transaction that begins has written nothing
      rw [(hevolves.new txnId txn' hlookup' hlookup).2] at hkey
      exact absurd hkey List.not_mem_nil
  | some txn =>
      obtain ⟨txn'', hlookup'', -, -, hactive, hkeys⟩ := hevolves.known txnId txn hlookup
      obtain rfl : txn' = txn'' := Option.some.inj (hlookup'.symm.trans hlookup'')
      have hactive := hactive hactive'
      rw [committedBefore_step hashKey hordered action ⟨txn, hlookup⟩]
      rcases committed_step hashKey hother with hold | hcommitted
      · rcases hkeys key hkey with hkey | hstored
        · exact hordered.behind txnId txn hlookup hactive key hkey other keys hold hin
        · exact hfresh (txnId, key) hstored ⟨txn, hlookup, hactive⟩ ⟨other, keys⟩
            (AList.mem_lookup_iff.mp hold) hin
      · -- what commits in the step was active and held the key
        obtain ⟨⟨txn₀, hlookup₀, hactive₀, rfl⟩, hended⟩ :=
          TxnSystem.of_committedBy hashKey hordered.locked hcommitted
        rcases hkeys key hkey with hkey | hstored
        · obtain rfl := hordered.locked.eq_of_common hlookup hlookup₀ hactive hactive₀ hkey hin
          exact absurd ⟨txn', hlookup', hactive'⟩ (TxnSystem.not_active_of_ended hended)
        · rw [TxnSystem.storedBy_of_committedBy hcommitted] at hstored
          contradiction

theorem Ordered.step (hordered : h.Ordered) {action : TxnStep} (hfresh : h.FreshStep action) :
    (h.step hashKey action).Ordered := by
  refine ⟨hordered.locked.step hashKey action, ?_, ?_, ?_⟩
  · exact fun txnId keys hlookup => hordered.ended_step hashKey action hlookup
  · intro txnId txn hlookup hactive key hkey other keys hother hin
    exact hordered.behind_step hashKey hfresh hlookup hactive hkey hother hin
  · have hknown : ∀ {txnId keys}, h.committed.lookup txnId = some keys → h.system.Known txnId :=
      fun hlookup => (hordered.ended _ _ hlookup).imp fun _ => And.left
    -- what commits in the step was active, and what had committed its keys is behind it
    have hcommits : ∀ txnId txnId' keys keys', h.committed.lookup txnId = some keys →
        h.system.committedBy action = some (txnId', keys') → ∀ key ∈ keys, key ∈ keys' →
          txnId ∈ (h.step hashKey action).committedBefore txnId' := by
      intro txnId txnId' keys keys' hold hcommitted key hkey hkey'
      obtain ⟨⟨txn, hlookup, hactive, rfl⟩, -⟩ :=
        TxnSystem.of_committedBy hashKey hordered.locked hcommitted
      rw [committedBefore_step hashKey hordered action ⟨txn, hlookup⟩]
      exact hordered.behind txnId' txn hlookup hactive key hkey' txnId keys hold hkey
    intro txnId txnId' keys keys' hne hlookup hlookup' key hkey hkey'
    rcases committed_step hashKey hlookup with hold | hcommitted
    · rcases committed_step hashKey hlookup' with hold' | hcommitted'
      · rw [committedBefore_step hashKey hordered action (hknown hold),
          committedBefore_step hashKey hordered action (hknown hold')]
        exact hordered.noLostUpdate txnId txnId' keys keys' hne hold hold' key hkey hkey'
      · exact Or.inl (hcommits txnId txnId' keys keys' hold hcommitted' key hkey hkey')
    · rcases committed_step hashKey hlookup' with hold' | hcommitted'
      · exact Or.inr (hcommits txnId' txnId keys' keys hold' hcommitted key hkey' hkey)
      · rw [hcommitted] at hcommitted'
        exact absurd (congrArg Prod.fst (Option.some.inj hcommitted')) hne

end

/-- In every run in which no key comes into a write set that has been committed since the
transaction began, no update is lost. -/
theorem noLostUpdate_run (hashKey : Bytes → UInt64) (storage : Lsm) (config : LockConfig)
    (steps : List TxnStep)
    (hsteps : Run.Along (step hashKey) FreshStep (init storage config) steps) :
    (Run.run (step hashKey) (init storage config) steps).NoLostUpdate := by
  have hordered : (Run.run (step hashKey) (init storage config) steps).Ordered :=
    hsteps.invariant Ordered (fun _ _ hordered hfresh => hordered.step hashKey hfresh)
      (ordered_init storage config)
  exact hordered.noLostUpdate

/-! ## Two writers -/

/-- `begin` with its three steps. -/
def beginSnapshot (txnId : ℕ) : List TxnStep :=
  .begin .snapshot txnId false :: List.replicate 3 (.continueBegin txnId .next)

/-- A `put` from its first step to its last. -/
def putKey (txnId callId : ℕ) (key : Bytes) : List TxnStep :=
  .write txnId (.put key [1]) :: List.replicate 9 (.advance callId .next)

/-- A commit, with its locks released. -/
def commitAll (txnId callId : ℕ) (key : Bytes) : List TxnStep :=
  .commit txnId txnId :: List.replicate 5 (.continueCommit txnId .inserted noFaults) ++
    [.advance callId .next, .advance callId (.visit key)] ++
    List.replicate 6 (.advance callId .next)

/-- The runs of the examples, with one hash for all keys. -/
def runOf (steps : List TxnStep) : CommitHistory :=
  Run.run (step fun _ => 0) (init (Lsm.openDir 100 Dir.empty) LockConfig.default) steps

/-- The second writer begins when the first has committed. -/
def inTurn : List TxnStep :=
  beginSnapshot 1 ++ putKey 1 0 [7] ++ commitAll 1 1 [7] ++
    (beginSnapshot 2 ++ putKey 2 2 [7] ++ commitAll 2 3 [7])

theorem noLostUpdate_inTurn : (runOf inTurn).NoLostUpdate :=
  noLostUpdate_run _ _ _ inTurn (by decide +kernel)

/-- The second writer has begun before, and gets the lock after. -/
def lateWriter : List TxnStep :=
  beginSnapshot 1 ++ beginSnapshot 2 ++ putKey 1 0 [7] ++ commitAll 1 1 [7] ++
    (putKey 2 2 [7] ++ commitAll 2 3 [7])

theorem not_noLostUpdate_lateWriter : ¬ (runOf lateWriter).NoLostUpdate := by
  intro h
  have hbefore := h 1 2 [[7]] [[7]] (by decide) (by decide +kernel) (by decide +kernel) [7]
    (by decide) (by decide)
  exact absurd hbefore (by decide +kernel)

end CommitHistory
end Crabstash

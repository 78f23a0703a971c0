import Crabstash.Txn.Handles
import Crabstash.Txn.Validation

/-!
# Writes that validation has to find

A serializable transaction has read a key from the storage, and before its commit is called
another write of the key takes effect: of a transaction, of any isolation level, or of a
`write_batch`, which goes to the storage directly.  (`Db::put` and `Db::delete` are
transactions: begin, one write, commit.)  Its commit should return an error.

`ValidationHistory` records beside the run which writes have taken effect and where they came
from, what each transaction has read from the storage, and, when a commit is called, whether
something that was read has been overwritten.  Validation finds such a write by way of two
histories only.  A serializable transaction is in the write index before it writes anything;
any other comes into the history of the `TransactionManager` when all its writes are done; a
batch is in neither.  And both are searched by timestamp, so that a commit which drew
its timestamp before the reader drew its own is passed over.

The condition (`ReadyStep`) is on the state in which a commit is called: if something has
been overwritten, then something has been by a transaction that is found in this way.
-/

namespace Crabstash

open Crabstash.Action

/-! ## The history -/

/-- A write that has taken effect; without a source it is of a batch. -/
structure LandedWrite where
  key : Bytes
  source : Option CommitSource
  deriving DecidableEq, Repr

namespace LandedWrite

/-- The transaction behind a write, if it came from a commit. -/
def writer (e : LandedWrite) : Option ℕ := e.source.map CommitSource.txnId

/-- The transaction of the write has come into the history. -/
def finish (txnId commitTs : ℕ) (e : LandedWrite) : LandedWrite :=
  { e with
    source := e.source.map fun source =>
      if source.txnId = txnId then { source with finishedTs := some commitTs } else source }

end LandedWrite

/-- The system, the writes that have taken effect, how many there were when a transaction had
begun, what each has read from the storage, whether something was overwritten when its commit
was called, and this again for each serializable transaction that has committed. -/
structure ValidationHistory where
  system : TxnSystem
  landed : List LandedWrite
  begunAt : HashMap ℕ ℕ
  reads : HashMap ℕ (List Bytes)
  called : HashMap ℕ Bool
  returned : List (ℕ × Bool)

/-- A step of a transaction, or a `Db::write_batch`, which may leave any storage behind. -/
inductive HistoryStep where
  | txn (action : TxnStep)
  | writeBatch (operations : List BatchOperation) (storage : Lsm)

namespace TxnSystem

/-- The transaction whose `begin` returns. -/
def begunBy (s : TxnSystem) : TxnStep → Option ℕ
  | .continueBegin txnId _ =>
      match s.starting.lookup txnId with
      | none => none
      | some (_, _, lock) => lock.result.map fun _ => txnId
  | _ => none

/-- The key that a transaction reads from the storage. -/
def readBy (s : TxnSystem) : TxnStep → Option (ℕ × Bytes)
  | .get txnId key =>
      match s.unlocked txnId with
      | none => none
      | some txn =>
          match txn.writeSet.get key with
          | some _ => none
          | none => some (txnId, key)
  | _ => none

/-- The write of a commit that takes effect, unless it fails at the log. -/
def landedBy (s : TxnSystem) : TxnStep → List LandedWrite
  | .continueCommit txnId _ faults =>
      match s.committing txnId with
      | some (txn, .writing _ op _) =>
          if faults .walAppend then []
          else [⟨op.key, some ⟨txnId, txn.isolation, txn.startTs, txn.commitTs.getD 0, none⟩⟩]
      | _ => []
  | _ => []

/-- The transaction that is committed, with its isolation level and commit timestamp. -/
def finishedBy (s : TxnSystem) : TxnStep → Option (ℕ × IsolationLevel × ℕ)
  | .continueCommit txnId order faults =>
      match s.committing txnId with
      | none => none
      | some (txn, progress) =>
          match (exec (commitStep faults order txn progress) s.engine).1 with
          | .ok none => some (txnId, txn.isolation, txn.commitTs.getD 0)
          | _ => none
  | _ => none

end TxnSystem

namespace ValidationHistory

/-- No transaction has begun. -/
def init (storage : Lsm) (config : LockConfig) : ValidationHistory :=
  { system := TxnSystem.init storage config, landed := [], begunAt := ∅, reads := ∅, called := ∅
    returned := [] }

/-- What a transaction has read so far. -/
def readsOf (h : ValidationHistory) (txnId : ℕ) : List Bytes := (h.reads.lookup txnId).getD []

/-- The writes of others since a transaction has begun, to keys it has read. -/
def overwrites (h : ValidationHistory) (txnId : ℕ) : List LandedWrite :=
  (h.landed.drop ((h.begunAt.lookup txnId).getD 0)).filter fun e =>
    (h.readsOf txnId).contains e.key && e.writer != some txnId

/-- What is written down at a step of a transaction. -/
def note (h : ValidationHistory) (action : TxnStep) : ValidationHistory :=
  { h with
    landed :=
      (match h.system.finishedBy action with
        | some (txnId, _, commitTs) => h.landed.map (LandedWrite.finish txnId commitTs)
        | none => h.landed) ++ h.system.landedBy action
    begunAt :=
      match h.system.begunBy action with
      | some txnId => h.begunAt.insert txnId h.landed.length
      | none => h.begunAt
    reads :=
      match h.system.readBy action with
      | some (txnId, key) => h.reads.insert txnId (key :: h.readsOf txnId)
      | none => h.reads
    called :=
      match action with
      | .commit txnId _ =>
          match h.system.unlocked txnId with
          | some _ => h.called.insert txnId (!(h.overwrites txnId).isEmpty)
          | none => h.called
      | _ => h.called
    returned :=
      match h.system.finishedBy action with
      | some (txnId, .serializable, _) => (txnId, (h.called.lookup txnId).getD false) :: h.returned
      | _ => h.returned }

variable (hashKey : Bytes → UInt64)

/-- The system after the step, with what the history notes of it. -/
def step (h : ValidationHistory) : HistoryStep → ValidationHistory
  | .txn action => { h.note action with system := h.system.step hashKey action }
  | .writeBatch operations storage =>
      { h with
        system := h.system.step hashKey (.onStorage storage)
        landed := h.landed ++ operations.map fun op => ⟨op.key, none⟩ }

/-- No serializable transaction has committed with something it had read overwritten when
its commit was called. -/
def Validated (h : ValidationHistory) : Prop := ∀ txnId, (txnId, true) ∉ h.returned

/-- Validation finds the writes of the commit: by their timestamps they overlap, and the
transaction is serializable or in the history already. -/
def Found (source : CommitSource) (startTs commitTs : ℕ) : Prop :=
  source.startTs < commitTs ∧
    ((source.isolation = .serializable ∧ startTs < source.commitTs) ∨
      ∃ finishedTs ∈ source.finishedTs, startTs < finishedTs)

instance (source : CommitSource) (startTs commitTs : ℕ) :
    Decidable (Found source startTs commitTs) := inferInstanceAs (Decidable (_ ∧ (_ ∨ ∃ _ ∈ _, _)))

/-- When the commit of a serializable transaction is called and something it has read has been
overwritten, something has been by a commit that validation finds. -/
def ReadyStep (h : ValidationHistory) : HistoryStep → Prop
  | .txn (.commit txnId physical) =>
      ∀ txn ∈ h.system.unlocked txnId, txn.isolation = .serializable → h.overwrites txnId ≠ [] →
        ∃ e ∈ h.overwrites txnId, ∃ source ∈ e.source,
          Found source txn.startTs (h.system.engine.tsOracle.getTimestamp physical).1
  | _ => True

instance (h : ValidationHistory) (action : HistoryStep) : Decidable (h.ReadyStep action) :=
  match action with
  | .writeBatch _ _ => inferInstanceAs (Decidable True)
  | .txn (.commit txnId _) =>
      inferInstanceAs
        (Decidable (∀ txn ∈ h.system.unlocked txnId, _ → _ → ∃ e ∈ _, ∃ source ∈ _, _))
  | .txn (.begin _ _ _) => inferInstanceAs (Decidable True)
  | .txn (.continueBegin _ _) => inferInstanceAs (Decidable True)
  | .txn (.get _ _) => inferInstanceAs (Decidable True)
  | .txn (.write _ _) => inferInstanceAs (Decidable True)
  | .txn (.continueCommit _ _ _) => inferInstanceAs (Decidable True)
  | .txn (.abort _) => inferInstanceAs (Decidable True)
  | .txn (.advance _ _) => inferInstanceAs (Decidable True)
  | .txn (.onStorage _) => inferInstanceAs (Decidable True)

end ValidationHistory

namespace TxnSystem

variable {hashKey : Bytes → UInt64} {s : TxnSystem}

/-! ## What was read -/

/-- A key that a serializable transaction reads is in its read set after that. -/
theorem mem_readSet_of_readBy (h : s.Locked) {action : TxnStep} {txnId : ℕ} {key : Bytes}
    (hread : s.readBy action = some (txnId, key)) :
    ∃ txn, (s.step hashKey action).engine.txns.lookup txnId = some txn ∧
      (txn.isolation = .serializable → key ∈ txn.readSet) := by
  cases action with
  | get other key' =>
      rw [readBy] at hread
      split at hread
      · contradiction
      · next txn hunlocked =>
          split at hread
          · contradiction
          · next hlocal =>
              obtain ⟨rfl, rfl⟩ := Prod.mk.inj (Option.some.inj hread)
              obtain rfl := h.ids other txn (lookup_of_unlocked hunlocked)
              rw [step, hunlocked]
              simp only [MvccEngine.get, hlocal]
              refine ⟨txn.recordRead key', ?_, fun hserializable => ?_⟩
              · have hid : (txn.recordRead key').id = txn.id := by
                  unfold Transaction.recordRead
                  split <;> rfl
                rw [MvccEngine.setTxn, hid]
                exact AList.lookup_insert _
              · unfold Transaction.recordRead at hserializable ⊢
                split
                · exact List.mem_insert_self
                · next hother =>
                    rw [if_neg hother] at hserializable
                    exact absurd (by rw [hserializable]; rfl) hother
  | _ => contradiction

/-! ## A commit that goes on -/

/-- Where there is a commit after a step and was none before, it is new. -/
theorem commit_of_none {action : TxnStep} {txnId : ℕ} {progress : CommitProgress}
    (hnone : s.commits.lookup txnId = none)
    (hcommit : (s.step hashKey action).commits.lookup txnId = some progress) :
    ∃ physical txn, action = .commit txnId physical ∧ s.unlocked txnId = some txn ∧
      progress = .drawn (s.engine.tsOracle.getTimestamp physical).1 := by
  have hsame : s.commits.lookup txnId ≠ some progress := by
    rw [hnone]
    simp
  have heffect := s.step_effect hashKey action
  generalize s.step hashKey action = s' at heffect hcommit
  cases heffect with
  | nothing => exact absurd hcommit hsame
  | draws => exact absurd hcommit hsame
  | registers => exact absurd hcommit hsame
  | starts => exact absurd hcommit hsame
  | gets => exact absurd hcommit hsame
  | writes => exact absurd hcommit hsame
  | commits hunlocked =>
      rcases lookup_insert_cases hcommit with ⟨rfl, rfl⟩ | hold
      · exact ⟨_, _, rfl, hunlocked, rfl⟩
      · exact absurd hold hsame
  | @proceeds other txn progress' order faults hcommitting =>
      have hne : txnId ≠ other := by
        rintro rfl
        rw [committing, hnone] at hcommitting
        contradiction
      rw [proceed_commits_ne hne] at hcommit
      exact absurd hcommit hsame
  | aborts => exact absurd hcommit hsame
  | advances _ hadvance => cases hadvance <;> exact absurd hcommit hsame
  | onStorage => exact absurd hcommit hsame

/-- A commit that is still there after its step has gone on. -/
theorem continued_of_some {order : IterOrder} {faults : Faults IoCall} {txnId : ℕ}
    {txn : Transaction} {progress progress' : CommitProgress}
    (hlookup : s.engine.txns.lookup txnId = some txn)
    (hprogress : s.commits.lookup txnId = some progress)
    (hcommit : (s.step hashKey (.continueCommit txnId order faults)).commits.lookup txnId =
      some progress') :
    (exec (commitStep faults order txn progress) s.engine).1 = .ok (some progress') ∧
      (s.step hashKey (.continueCommit txnId order faults)).engine =
        (exec (commitStep faults order txn progress) s.engine).2 := by
  rw [step, committing_eq hprogress hlookup] at hcommit ⊢
  simp only at hcommit ⊢
  refine ⟨?_, engine_proceed _ _ _⟩
  generalize exec (commitStep faults order txn progress) s.engine = result at hcommit
  obtain ⟨result, engine⟩ := result
  cases result with
  | error e =>
      have hcommit : (s.commits.erase txnId).lookup txnId = some progress' := hcommit
      rw [AList.lookup_erase] at hcommit
      contradiction
  | ok next =>
      cases next with
      | none =>
          have hcommit : (s.commits.erase txnId).lookup txnId = some progress' := hcommit
          rw [AList.lookup_erase] at hcommit
          contradiction
      | some next =>
          have hcommit : (s.commits.insert txnId next).lookup txnId = some progress' := hcommit
          rw [AList.lookup_insert] at hcommit
          rw [Option.some.inj hcommit]

/-- What `finishedBy` reports. -/
theorem of_finishedBy (hashKey : Bytes → UInt64) {action : TxnStep} {txnId commitTs : ℕ}
    {isolation : IsolationLevel}
    (hfinished : s.finishedBy action = some (txnId, isolation, commitTs)) :
    ∃ order faults txn progress, action = .continueCommit txnId order faults ∧
      s.engine.txns.lookup txnId = some txn ∧ s.commits.lookup txnId = some progress ∧
        (exec (commitStep faults order txn progress) s.engine).1 = .ok none ∧
          txn.isolation = isolation ∧ txn.commitTs.getD 0 = commitTs ∧
            (s.step hashKey action).engine =
              (exec (commitStep faults order txn progress) s.engine).2 := by
  cases action with
  | continueCommit other order faults =>
      rw [finishedBy] at hfinished
      split at hfinished
      · contradiction
      · next txn progress hcommitting =>
          split at hfinished
          · next hresult =>
              obtain ⟨rfl, rfl, rfl⟩ := by simpa using hfinished
              have hprogress := commits_of_committing hcommitting
              refine ⟨order, faults, txn, progress, rfl, lookup_of_committing hcommitting,
                hprogress, hresult, rfl, rfl, ?_⟩
              rw [step, hcommitting]
              exact engine_proceed _ _ _
          · contradiction
  | _ => contradiction

/-- The writes that `landedBy` reports. -/
theorem of_landedBy {action : TxnStep} {e : LandedWrite} (hlanded : e ∈ s.landedBy action) :
    ∃ txnId txn ts op todo, s.engine.txns.lookup txnId = some txn ∧
      s.commits.lookup txnId = some (.writing ts op todo) ∧
        e = ⟨op.key, some ⟨txnId, txn.isolation, txn.startTs, txn.commitTs.getD 0, none⟩⟩ := by
  cases action with
  | continueCommit txnId order faults =>
      rw [landedBy] at hlanded
      split at hlanded
      · next txn ts op todo hcommitting =>
          split at hlanded
          · contradiction
          · exact ⟨txnId, txn, ts, op, todo, lookup_of_committing hcommitting,
              commits_of_committing hcommitting, List.mem_singleton.mp hlanded⟩
      · contradiction
  | _ => contradiction

end TxnSystem

/-! ## The invariant -/

namespace ValidationHistory

/-- A commit under way has noted what it writes, and if something was overwritten when it was
called it is still to be refused. -/
def CommitSound (hashKey : Bytes → UInt64) (h : ValidationHistory) (txnId : ℕ)
    (progress : CommitProgress) : Prop :=
  ∃ txn, h.system.engine.txns.lookup txnId = some txn ∧
    h.system.engine.CommitNoted hashKey txn progress ∧
      (txn.isolation = .serializable → h.called.lookup txnId = some true →
        h.system.engine.Doomed hashKey txn progress)

/-- What a run keeps: the system's own invariants, and that what the history has noted is what
the engine knows. -/
structure Sound (hashKey : Bytes → UInt64) (h : ValidationHistory) : Prop where
  locked : h.system.Locked
  registered : h.system.engine.Registered
  noted : h.system.engine.Noted hashKey
  calls : h.system.CallsNoted hashKey
  reads : ∀ txnId, ∀ key ∈ h.readsOf txnId, ∃ txn, h.system.engine.txns.lookup txnId = some txn ∧
    (txn.isolation = .serializable → key ∈ txn.readSet)
  landed : ∀ e ∈ h.landed, ∀ source ∈ e.source, h.system.engine.SourceNoted hashKey e.key source
  commits : ∀ txnId progress, h.system.commits.lookup txnId = some progress →
    h.CommitSound hashKey txnId progress
  validated : h.Validated

theorem sound_init (hashKey : Bytes → UInt64) (storage : Lsm) (config : LockConfig) :
    (init storage config).Sound hashKey where
  locked := TxnSystem.locked_init storage config
  registered := MvccEngine.registered_new storage
  noted := MvccEngine.noted_new storage
  calls := by
    intro callId call hcall
    contradiction
  reads := by
    intro txnId key hkey
    contradiction
  landed := by
    intro e he
    contradiction
  commits := by
    intro txnId progress hprogress
    contradiction
  validated := by
    intro txnId hreturned
    contradiction

section

variable {hashKey : Bytes → UInt64} {h : ValidationHistory}

/-- A conflict with a write that can be found. -/
theorem doomed_of_found {s : MvccEngine} {txn : Transaction} {key : Bytes} {source : CommitSource}
    {commitTs : ℕ} (hkey : key ∈ txn.readSet) (hnoted : s.SourceNoted hashKey key source)
    (hfound : Found source txn.startTs commitTs) : s.Doomed hashKey txn (.drawn commitTs) := by
  obtain ⟨hstart, ⟨hserializable, hcommit⟩ | ⟨finishedTs, hfinished, hcommit⟩⟩ := hfound
  · exact Or.inl ⟨key, hkey, _, hnoted.index hserializable, hcommit, hstart⟩
  · obtain ⟨record, hrecord, rfl, hstartTs, hwritten⟩ := hnoted.record finishedTs hfinished
    exact Or.inr ⟨record, hrecord, hcommit, hstartTs ▸ hstart, key, hkey, hwritten⟩

theorem Sound.reads_step (hsound : h.Sound hashKey) (action : TxnStep) (txnId : ℕ) (key : Bytes)
    (hkey : key ∈ (h.step hashKey (.txn action)).readsOf txnId) :
    ∃ txn, (h.system.step hashKey action).engine.txns.lookup txnId = some txn ∧
      (txn.isolation = .serializable → key ∈ txn.readSet) := by
  have hgrows := (TxnSystem.moves_step hashKey hsound.locked action).grows
  have hold : key ∈ h.readsOf txnId → ∃ txn,
      (h.system.step hashKey action).engine.txns.lookup txnId = some txn ∧
        (txn.isolation = .serializable → key ∈ txn.readSet) := by
    intro hkey
    obtain ⟨txn, hlookup, hread⟩ := hsound.reads txnId key hkey
    obtain ⟨txn', hlookup', -, hisolation, hreads, -⟩ := hgrows.txns txnId txn hlookup
    exact ⟨txn', hlookup', fun hserializable => hreads (hread (hisolation ▸ hserializable))⟩
  unfold readsOf step note at hkey
  simp only at hkey
  split at hkey
  · next other key' hread =>
      by_cases heq : txnId = other
      · subst heq
        rw [AList.lookup_insert] at hkey
        rcases List.mem_cons.mp hkey with rfl | hkey
        · exact TxnSystem.mem_readSet_of_readBy hsound.locked hread
        · exact hold hkey
      · rw [AList.lookup_insert_ne heq] at hkey
        exact hold hkey
  · exact hold hkey

theorem Sound.landed_step (hsound : h.Sound hashKey) (action : TxnStep) :
    ∀ e ∈ (h.step hashKey (.txn action)).landed, ∀ source ∈ e.source,
      (h.system.step hashKey action).engine.SourceNoted hashKey e.key source := by
  have hgrows := (TxnSystem.moves_step hashKey hsound.locked action).grows
  intro e hmem source hsource
  rcases List.mem_append.mp hmem with hold | hnew
  · split at hold
    · next txnId isolation commitTs hfinished =>
        obtain ⟨e, he, rfl⟩ := List.mem_map.mp hold
        obtain ⟨source, hof, rfl⟩ := Option.mem_map.mp hsource
        have hnoted := hgrows.sourceNoted (hsound.landed e he source hof)
        split
        · next heq =>
            refine ⟨hnoted.known, hnoted.index, fun finishedTs hfinishedTs => ?_⟩
            obtain rfl := Option.some.inj hfinishedTs
            -- the commit has entered all that its transaction has written
            obtain ⟨order, faults, txn, progress, rfl, hlookup, -, hresult, -, hcommitTs,
                hengine⟩ := TxnSystem.of_finishedBy hashKey hfinished
            obtain ⟨txn', hlookup', hstart, hwritten⟩ := (hsound.landed e he source hof).known
            rw [heq, hlookup] at hlookup'
            obtain rfl := Option.some.inj hlookup'
            obtain ⟨commitTs', heqTs, hrecord⟩ := MvccEngine.record_of_finished hresult
            rw [heqTs] at hcommitTs
            rw [hengine]
            exact ⟨_, hrecord, hcommitTs, hstart, hwritten⟩
        · exact hnoted
    · exact hgrows.sourceNoted (hsound.landed e hold source hsource)
  · obtain ⟨txnId, txn, ts, op, todo, hlookup, hprogress, rfl⟩ := TxnSystem.of_landedBy hnew
    obtain rfl := Option.some.inj hsource
    obtain ⟨txn', hlookup', happlies, -⟩ := hsound.commits txnId _ hprogress
    rw [hlookup] at hlookup'
    obtain rfl := Option.some.inj hlookup'
    obtain ⟨⟨commitTs, hcommitTs, hindexed⟩, hkeys⟩ := happlies
    have hkey := hkeys op List.mem_cons_self
    refine hgrows.sourceNoted ⟨⟨txn, hlookup, rfl, hkey⟩, fun hserializable => ?_, ?_⟩
    · rw [hcommitTs]
      exact hindexed hserializable op.key hkey
    · intro finishedTs hfinishedTs
      contradiction

/-- The commits that others have called are as they were. -/
theorem called_step {action : TxnStep} {txnId : ℕ}
    (hother : ∀ physical, action = .commit txnId physical → h.system.unlocked txnId = none) :
    (h.step hashKey (.txn action)).called.lookup txnId = h.called.lookup txnId := by
  unfold step note
  simp only
  split
  · next other physical =>
      split
      · next txn hunlocked =>
          have hne : txnId ≠ other := by
            rintro rfl
            rw [hother physical rfl] at hunlocked
            contradiction
          exact AList.lookup_insert_ne hne
      · rfl
  · rfl

/-- The commit of a transaction is called, in a state that is ready for it. -/
theorem Sound.commit_called (hsound : h.Sound hashKey) {txnId physical : ℕ} {txn : Transaction}
    (hunlocked : h.system.unlocked txnId = some txn)
    (hready : h.ReadyStep (.txn (.commit txnId physical)))
    (hserializable : txn.isolation = .serializable)
    (hcalled : (h.step hashKey (.txn (.commit txnId physical))).called.lookup txnId = some true) :
    h.system.engine.Doomed hashKey txn
      (.drawn (h.system.engine.tsOracle.getTimestamp physical).1) := by
  have hlookup := TxnSystem.lookup_of_unlocked hunlocked
  have hoverwritten : h.overwrites txnId ≠ [] := by
    unfold step note at hcalled
    simp only [hunlocked, AList.lookup_insert, Option.some.injEq] at hcalled
    intro hnil
    rw [hnil] at hcalled
    contradiction
  obtain ⟨e, he, source, hsource, hfound⟩ := hready txn hunlocked hserializable hoverwritten
  obtain ⟨hlanded, hfilter⟩ := List.mem_filter.mp he
  have hkey : e.key ∈ h.readsOf txnId := by
    rw [Bool.and_eq_true, List.contains_iff_mem] at hfilter
    exact hfilter.1
  obtain ⟨txn', hlookup', hread⟩ := hsound.reads txnId e.key hkey
  obtain rfl : txn = txn' := Option.some.inj (hlookup.symm.trans hlookup')
  exact doomed_of_found (hread hserializable)
    (hsound.landed e (List.mem_of_mem_drop hlanded) source hsource) hfound

theorem Sound.commits_step (hsound : h.Sound hashKey) {action : TxnStep}
    (hready : h.ReadyStep (.txn action)) (txnId : ℕ) (progress' : CommitProgress)
    (hcommit : (h.system.step hashKey action).commits.lookup txnId = some progress') :
    (h.step hashKey (.txn action)).CommitSound hashKey txnId progress' := by
  have hgrows := (TxnSystem.moves_step hashKey hsound.locked action).grows
  cases hprogress : h.system.commits.lookup txnId with
  | none =>
      -- the commit begins in this step
      obtain ⟨physical, txn, rfl, hunlocked, rfl⟩ := TxnSystem.commit_of_none hprogress hcommit
      have hlookup := TxnSystem.lookup_of_unlocked hunlocked
      refine ⟨txn, ?_, True.intro, fun hserializable hcalled => ?_⟩
      · show (h.system.step hashKey (.commit txnId physical)).engine.txns.lookup txnId = some txn
        rw [TxnSystem.step, hunlocked]
        exact hlookup
      · exact hgrows.doomed (hsound.commit_called hunlocked hready hserializable hcalled)
  | some progress =>
      obtain ⟨txn, hlookup, hnoted, hdoomed⟩ := hsound.commits txnId progress hprogress
      by_cases hown : ∃ order faults, action = .continueCommit txnId order faults
      · obtain ⟨order, faults, rfl⟩ := hown
        obtain ⟨hresult, hengine⟩ := TxnSystem.continued_of_some hlookup hprogress hcommit
        obtain rfl := hsound.locked.ids txnId txn hlookup
        obtain ⟨txn', hlookup', hnoted', hdoomed'⟩ :=
          MvccEngine.noted_commitStep hsound.noted hlookup hnoted hresult
        rw [← hengine] at hlookup' hnoted' hdoomed'
        have hgrown : txn'.isolation = txn.isolation := by
          obtain ⟨txn'', hlookup'', -, hisolation, -⟩ := hgrows.txns txn.id txn hlookup
          rw [hlookup'] at hlookup''
          obtain rfl := Option.some.inj hlookup''
          exact hisolation
        refine ⟨txn', hlookup', hnoted', fun hserializable hcalled => ?_⟩
        rw [hgrown] at hserializable
        have hother : ∀ physical, TxnStep.continueCommit txn.id order faults =
            .commit txn.id physical → h.system.unlocked txn.id = none := by
          intro physical heq
          contradiction
        rw [called_step hother] at hcalled
        exact hdoomed' hserializable (hdoomed hserializable hcalled)
      · -- a step of another call leaves the commit where it is
        have hother : ∀ order faults, action ≠ .continueCommit txnId order faults :=
          fun order faults heq => hown ⟨order, faults, heq⟩
        obtain ⟨hlookup', hcommit'⟩ :=
          TxnSystem.frozen_step hashKey hsound.locked hlookup hprogress hother
        rw [hcommit'] at hcommit
        obtain rfl := Option.some.inj hcommit
        refine ⟨txn, hlookup', hgrows.commitNoted hnoted, fun hserializable hcalled => ?_⟩
        have hguarded : h.system.unlocked txnId = none := by
          rw [TxnSystem.unlocked, hprogress]
        rw [called_step fun _ _ => hguarded] at hcalled
        exact hgrows.doomed (hdoomed hserializable hcalled)

theorem Sound.validated_step (hsound : h.Sound hashKey) (action : TxnStep) :
    (h.step hashKey (.txn action)).Validated := by
  intro txnId hreturned
  unfold step note at hreturned
  simp only at hreturned
  split at hreturned
  · next other commitTs hfinished =>
      rcases List.mem_cons.mp hreturned with heq | hold
      · obtain ⟨rfl, hcalled⟩ := Prod.mk.inj heq
        obtain ⟨order, faults, txn, progress, rfl, hlookup, hprogress, hresult, hserializable, -⟩ :=
          TxnSystem.of_finishedBy hashKey hfinished
        obtain ⟨txn', hlookup', -, hdoomed⟩ := hsound.commits txnId progress hprogress
        rw [hlookup] at hlookup'
        obtain rfl := Option.some.inj hlookup'
        have hcalled : h.called.lookup txnId = some true := by
          cases hlookup : h.called.lookup txnId with
          | none =>
              rw [hlookup] at hcalled
              contradiction
          | some b =>
              rw [hlookup] at hcalled
              rw [hcalled]
              rfl
        exact MvccEngine.not_doomed_of_finished hserializable hresult
          (hdoomed hserializable hcalled)
      · exact hsound.validated txnId hold
  · exact hsound.validated txnId hreturned

theorem Sound.step_txn (hsound : h.Sound hashKey) {action : TxnStep}
    (hready : h.ReadyStep (.txn action)) : (h.step hashKey (.txn action)).Sound hashKey where
  locked := hsound.locked.step hashKey action
  registered := TxnSystem.registered_step hsound.locked hsound.registered action
  noted := (TxnSystem.moves_step hashKey hsound.locked action).noted hsound.noted hsound.registered
    hsound.calls
  calls := TxnSystem.callsNoted_step hsound.locked hsound.registered hsound.calls action
  reads := hsound.reads_step action
  landed := hsound.landed_step action
  commits := hsound.commits_step hready
  validated := hsound.validated_step action

/-- A batch is a change of the storage, and leaves writes behind that no transaction has made. -/
theorem Sound.step_writeBatch (hsound : h.Sound hashKey) (operations : List BatchOperation)
    (storage : Lsm) : (h.step hashKey (.writeBatch operations storage)).Sound hashKey := by
  have hstorage : (h.step hashKey (.txn (.onStorage storage))).Sound hashKey :=
    hsound.step_txn trivial
  refine { hstorage with landed := fun e he source hsource => ?_ }
  rcases List.mem_append.mp he with hold | hnew
  · exact hstorage.landed e (List.mem_append_left _ hold) source hsource
  · obtain ⟨op, -, rfl⟩ := List.mem_map.mp hnew
    contradiction

theorem Sound.step (hsound : h.Sound hashKey) {action : HistoryStep} (hready : h.ReadyStep action) :
    (h.step hashKey action).Sound hashKey := by
  cases action with
  | txn action => exact hsound.step_txn hready
  | writeBatch operations storage => exact hsound.step_writeBatch operations storage

end

/-- In a run in which, whenever the commit of a serializable transaction is called, validation
can find something that it has missed, every such commit is refused. -/
theorem validated_run (hashKey : Bytes → UInt64) (storage : Lsm) (config : LockConfig)
    (steps : List HistoryStep)
    (hsteps : Run.Along (step hashKey) ReadyStep (init storage config) steps) :
    (Run.run (step hashKey) (init storage config) steps).Validated := by
  have hsound : (Run.run (step hashKey) (init storage config) steps).Sound hashKey :=
    hsteps.invariant (Sound hashKey) (fun _ _ hsound hready => hsound.step hready)
      (sound_init hashKey storage config)
  exact hsound.validated

/-! ## A read that is overwritten -/

/-- The runs of the examples, with the first byte of a key as its hash. -/
def runOf (steps : List HistoryStep) : ValidationHistory :=
  Run.run (step fun key => key.headD 0 |>.toUInt64)
    (init (Lsm.openDir 100 Dir.empty) LockConfig.default) steps

/-- The first transaction begins and reads a key. -/
def readKey (key : Bytes) : List TxnStep := TxnHandles.beginSerializable 1 ++ [.get 1 key]

/-- Its commit goes on until it is through or refused. -/
def commitReader : List TxnStep :=
  .commit 1 1 :: List.replicate 5 (.continueCommit 1 .inserted noFaults)

/-- Another serializable transaction writes the key and commits. -/
def overwrittenByTxn : List TxnStep :=
  readKey [7] ++ TxnHandles.beginSerializable 2 ++ CommitHistory.putKey 2 0 [7] ++
    CommitHistory.commitAll 2 1 [7] ++ commitReader

theorem validated_overwrittenByTxn : (runOf (overwrittenByTxn.map .txn)).Validated :=
  validated_run _ _ _ (overwrittenByTxn.map .txn) (by decide +kernel)

/-- A `write_batch` goes to the storage directly. -/
def overwrittenByBatch : List HistoryStep :=
  let operations : List BatchOperation := [.put [7] [1]]
  (readKey [7]).map .txn ++
    .writeBatch operations
        (exec (Lsm.writeBatch noFaults operations) (Lsm.openDir 100 Dir.empty)).2 ::
      commitReader.map .txn

theorem not_validated_overwrittenByBatch : ¬ (runOf overwrittenByBatch).Validated := by
  intro h
  exact h 1 (by decide +kernel)

end ValidationHistory
end Crabstash

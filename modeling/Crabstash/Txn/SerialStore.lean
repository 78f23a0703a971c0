import Crabstash.Txn.ReadYourWrites

/-!
# The store under the locks

Each write of a commit draws its timestamp in one step and goes into the memtable in another, so
that writes of two commits may come to the memtable in the other order than their timestamps.
The newest version of a key is then not the last write of it, and a map in which the last write
wins is not what the storage is.

For one key this cannot happen.  A commit writes a key while its transaction is active and holds
the lock of the key, and so the next transaction to write it draws its timestamp when the last
write of the first is in the memtable.  What follows is more than an order on single writes: in
all states the storage is what the transactions committed so far have written, each as one batch
and in the order in which they were committed, but for the keys that a commit still under way has
already applied (`Serial`).

Three conditions are needed.  No commit is called on a transaction that has ended, for `commit`
applies the writes first and looks at the state of the transaction at the end, when its locks may
be gone.  No call of the storage fails, which may leave a part of a write set behind.  And a flush
does not change the newest value of a key (`FlushSafe`).
-/

namespace Crabstash

open Crabstash.Action

/-! ## The operations of a write set -/

namespace WriteSet

theorem mem_writeKeys_of_get {w : WriteSet} {key : Bytes} {effect : Option Bytes}
    (h : w.get key = some effect) : key ∈ w.writeKeys := by
  rw [mem_writeKeys]
  cases effect with
  | none => exact Or.inr (get_eq_some_none_iff.mp h)
  | some value =>
      have hlookup := get_eq_some_some_iff.mp h
      exact Or.inl (AList.lookup_isSome.mp (Option.isSome_of_eq_some hlookup))

end WriteSet

namespace IterOrder

variable (order : IterOrder) (w : WriteSet)

theorem keys_operations :
    (order.operations w).map BatchOperation.key =
      (order.puts w).map Prod.fst ++ order.deletes w := by
  unfold operations
  rw [List.map_append, List.map_map, List.map_map]
  have hputs : (BatchOperation.key ∘ fun put : Bytes × Bytes => BatchOperation.put put.1 put.2) =
      Prod.fst := rfl
  have hdeletes : (BatchOperation.key ∘ fun key => BatchOperation.delete key) = id := rfl
  rw [hputs, hdeletes, List.map_id]

/-- No key has two operations. -/
theorem nodup_operations : ((order.operations w).map BatchOperation.key).Nodup := by
  have hkeys : w.iterPuts.map Prod.fst = w.puts.keys := by
    unfold WriteSet.iterPuts
    rw [List.map_map]
    rfl
  have hputs : ((order.puts w).map Prod.fst).Perm w.puts.keys :=
    hkeys ▸ (order.puts_perm w).map Prod.fst
  have hdeletes : (order.deletes w).Perm w.deletes := order.deletes_perm w
  rw [keys_operations, List.nodup_append]
  refine ⟨hputs.nodup_iff.mpr w.puts.keys_nodup, hdeletes.nodup_iff.mpr w.nodup, ?_⟩
  intro key hput key' hdelete heq
  subst heq
  exact w.disjoint key (hdeletes.mem_iff.mp hdelete) (AList.mem_keys.mpr (hputs.mem_iff.mp hput))

/-- What the write set has on a key is among the operations. -/
theorem mem_keys_operations {key : Bytes} {effect : Option Bytes} (h : w.get key = some effect) :
    key ∈ (order.operations w).map BatchOperation.key := by
  cases effect with
  | none => exact List.mem_map.mpr ⟨.delete key, mem_operations_iff.mpr h, rfl⟩
  | some value => exact List.mem_map.mpr ⟨.put key value, mem_operations_iff.mpr h, rfl⟩

end IterOrder

/-! ## A write that reaches the storage -/

namespace Lsm

/-- A write with its timestamp, from the write lock on. -/
def land (s : Lsm) (ts : ℕ) : BatchOperation → Lsm
  | .put key value => (s.write key (some value) ts).settle
  | .delete key => s.write key none ts

theorem exec_writeAt (s : Lsm) (ts : ℕ) (op : BatchOperation) :
    exec (writeAt noFaults ts op) s = (.ok (), s.land ts op) := by
  cases op with
  | put key value => exact exec_putAt s ts key value
  | delete key => exact exec_deleteAt s ts key

/-- If the write rotates the memtable, the flush is safe. -/
def SafeLanding (s : Lsm) (ts : ℕ) : BatchOperation → Prop
  | .put key value => (s.write key (some value) ts).full →
      ∀ e ∈ (s.write key (some value) ts).memtable.iter,
        (s.write key (some value) ts).FlushSafe e.1.data
  | .delete _ => True

instance (s : Lsm) (ts : ℕ) (op : BatchOperation) : Decidable (s.SafeLanding ts op) :=
  match op with
  | .put _ _ => inferInstanceAs (Decidable (_ → _))
  | .delete _ => inferInstanceAs (Decidable True)

theorem land_cases {s : Lsm} {ts : ℕ} {op : BatchOperation} (hsafe : s.SafeLanding ts op) :
    s.land ts op = s.write op.key op.effect ts ∨
      s.land ts op = (s.write op.key op.effect ts).rotate ∧
        ∀ key, (s.write op.key op.effect ts).FlushSafe key := by
  cases op with
  | delete key => exact Or.inl rfl
  | put key value =>
      rw [land, settle]
      by_cases hfull : (s.write key (some value) ts).full
      · rw [if_pos hfull]
        exact Or.inr ⟨rfl, flushSafe_of_forall_mem (hsafe hfull)⟩
      · rw [if_neg hfull]
        exact Or.inl rfl

/-- What another key has to do with a step of the storage: nothing. -/
structure KeepsKey (key : Bytes) (s s' : Lsm) : Prop where
  newest : s'.newest key = s.newest key
  versions : ∀ e ∈ s'.memtable.iter, e.1.data = key → e ∈ s.memtable.iter
  nextTs : s.nextTs ≤ s'.nextTs

theorem KeepsKey.refl (key : Bytes) (s : Lsm) : KeepsKey key s s := ⟨rfl, fun _ he _ => he, le_rfl⟩

theorem keepsKey_advance (key : Bytes) (s : Lsm) (count : ℕ) : KeepsKey key s (s.advance count) :=
  ⟨rfl, fun _ he _ => he, Nat.le_add_right _ _⟩

/-- The memtable is the only one there is, and its versions have drawn their timestamps. -/
structure Ready (s : Lsm) : Prop where
  immutableMemtables : s.immutableMemtables = []
  below : s.Below s.nextTs

/-- A timestamp that has been drawn, and that no version of the key has reached. -/
structure DrawnFor (s : Lsm) (key : Bytes) (ts : ℕ) : Prop where
  drawn : ts < s.nextTs
  older : ∀ e ∈ s.memtable.iter, e.1.data = key → e.1.timestamp < ts

theorem Ready.advance {s : Lsm} (h : s.Ready) (count : ℕ) : (s.advance count).Ready where
  immutableMemtables := h.immutableMemtables
  below := fun e he => Nat.lt_add_right count (h.below e he)

theorem Ready.get {s : Lsm} (h : s.Ready) (key : Bytes) : s.get key = s.newest key :=
  getAtTs_eq_newest h.immutableMemtables fun e he _ => (h.below e he).le

section

variable {s : Lsm} {ts : ℕ} {op : BatchOperation}

theorem Ready.land (h : s.Ready) (hts : ts < s.nextTs) (hsafe : s.SafeLanding ts op) :
    (s.land ts op).Ready := by
  have hwrite : (s.write op.key op.effect ts).Ready := by
    refine ⟨h.immutableMemtables, fun e he => ?_⟩
    rcases MemTable.mem_iter_record.mp he with rfl | ⟨he, -⟩
    · exact hts
    · exact h.below e he
  rcases land_cases hsafe with hland | ⟨hland, -⟩
  · rw [hland]
    exact hwrite
  · rw [hland]
    refine ⟨hwrite.immutableMemtables, fun e he => ?_⟩
    exact absurd he List.not_mem_nil

theorem newest_land (h : s.Ready) (hsafe : s.SafeLanding ts op) (key : Bytes) :
    (s.land ts op).newest key = (s.write op.key op.effect ts).newest key := by
  rcases land_cases hsafe with hland | ⟨hland, hflush⟩
  · rw [hland]
  · have himm : (s.write op.key op.effect ts).immutableMemtables = [] := h.immutableMemtables
    rw [hland]
    exact newest_rotate himm (hflush key)

theorem keepsKey_land (h : s.Ready) (hsafe : s.SafeLanding ts op) {key : Bytes}
    (hne : key ≠ op.key) : KeepsKey key s (s.land ts op) where
  newest := (newest_land h hsafe key).trans (newest_write_of_ne s hne.symm _ _)
  versions := by
    intro e he hkey
    rcases land_cases hsafe with hland | ⟨hland, -⟩
    · rw [hland] at he
      rcases MemTable.mem_iter_record.mp he with rfl | ⟨he, -⟩
      · exact absurd hkey.symm hne
      · exact he
    · rw [hland] at he
      exact absurd he List.not_mem_nil
  nextTs := by
    rcases land_cases hsafe with hland | ⟨hland, -⟩
    · rw [hland]
      exact le_rfl
    · rw [hland]
      exact le_rfl

/-- A write is the newest, if the versions of its key are older. -/
theorem newest_land_self (h : s.Ready) (hsafe : s.SafeLanding ts op)
    (hdrawn : s.DrawnFor op.key ts) : (s.land ts op).newest op.key = op.effect := by
  rw [newest_land h hsafe]
  exact newest_write_self (fun e he hkey => (hdrawn.older e he hkey).le) op.effect

end

end Lsm

/-! ## Commits under way -/

/-- The commit is past the write of the key. -/
def CommitProgress.Past (key : Bytes) : CommitProgress → Prop
  | .applying todo => key ∉ todo.map BatchOperation.key
  | .writing _ op todo => key ∉ (op :: todo).map BatchOperation.key
  | _ => False

/-- If the next step is a write, its flush is safe. -/
def CommitProgress.Safe (s : Lsm) : CommitProgress → Prop
  | .writing ts op _ => s.SafeLanding ts op
  | _ => True

instance (s : Lsm) (progress : CommitProgress) : Decidable (progress.Safe s) :=
  match progress with
  | .writing ts op _ => inferInstanceAs (Decidable (s.SafeLanding ts op))
  | .drawn _ => inferInstanceAs (Decidable True)
  | .validated _ => inferInstanceAs (Decidable True)
  | .applying _ => inferInstanceAs (Decidable True)

namespace MvccEngine

/-- A commit that has these operations still to apply; what it has applied is the newest. -/
structure Applying (s : MvccEngine) (txn : Transaction) (todo : List BatchOperation) : Prop where
  active : txn.state = .active
  prepared : ∃ commitTs, txn.commitTs = some commitTs
  nodup : (todo.map BatchOperation.key).Nodup
  last : ∀ op ∈ todo, txn.writeSet.get op.key = some op.effect
  past : ∀ key effect, txn.writeSet.get key = some effect →
    key ∉ todo.map BatchOperation.key → s.storage.newest key = effect

/-- How far the storage has come where the commit stands. -/
def InTurn (s : MvccEngine) (txn : Transaction) : CommitProgress → Prop
  | .drawn _ => txn.state = .active
  | .validated _ => txn.state = .active
  | .applying todo => s.Applying txn todo
  | .writing ts op todo => s.Applying txn (op :: todo) ∧ s.storage.DrawnFor op.key ts

section

variable {s s' : MvccEngine} {txn : Transaction}

theorem InTurn.active {progress : CommitProgress} (h : s.InTurn txn progress) :
    txn.state = .active := by
  cases progress with
  | drawn commitTs => exact h
  | validated commitTs => exact h
  | applying todo => exact Applying.active h
  | writing ts op todo => exact h.1.active

theorem Applying.keeps {todo : List BatchOperation} (h : s.Applying txn todo)
    (hkeeps : ∀ key ∈ txn.writeSet.writeKeys, Lsm.KeepsKey key s.storage s'.storage) :
    s'.Applying txn todo where
  active := h.active
  prepared := h.prepared
  nodup := h.nodup
  last := h.last
  past := fun key effect hget hpast =>
    (hkeeps key (WriteSet.mem_writeKeys_of_get hget)).newest.trans (h.past key effect hget hpast)

/-- A step of the storage that has nothing to do with the keys of the transaction. -/
theorem InTurn.keeps {progress : CommitProgress} (h : s.InTurn txn progress)
    (hkeeps : ∀ key ∈ txn.writeSet.writeKeys, Lsm.KeepsKey key s.storage s'.storage) :
    s'.InTurn txn progress := by
  cases progress with
  | drawn commitTs => exact h
  | validated commitTs => exact h
  | applying todo => exact Applying.keeps h hkeeps
  | writing ts op todo =>
      obtain ⟨happlying, hdrawn, holder⟩ := h
      have hget := happlying.last op (List.mem_cons_self ..)
      have hkey := hkeeps op.key (WriteSet.mem_writeKeys_of_get hget)
      refine ⟨happlying.keeps hkeeps, hdrawn.trans_le hkey.nextTs, fun e he hdata => ?_⟩
      exact holder e (hkey.versions e he hdata) hdata

/-- A commit that begins to apply its writes. -/
theorem applying_operations (s : MvccEngine) (order : IterOrder) (hactive : txn.state = .active)
    (hprepared : ∃ commitTs, txn.commitTs = some commitTs) :
    s.Applying txn (order.operations txn.writeSet) where
  active := hactive
  prepared := hprepared
  nodup := order.nodup_operations txn.writeSet
  last := fun _ hop => IterOrder.mem_operations_iff.mp hop
  past := fun _ _ hget hpast => absurd (order.mem_keys_operations txn.writeSet hget) hpast

theorem Applying.draws {op : BatchOperation} {todo : List BatchOperation}
    (h : s.Applying txn (op :: todo)) (hready : s.storage.Ready) :
    { s with storage := s.storage.advance 1 }.InTurn txn
      (.writing s.storage.nextTs op todo) := by
  refine ⟨?_, Nat.lt_succ_self _, fun e he _ => hready.below e he⟩
  exact h.keeps fun key _ => Lsm.keepsKey_advance key s.storage 1

/-- The next write is applied. -/
theorem Applying.lands {ts : ℕ} {op : BatchOperation} {todo : List BatchOperation}
    (h : s.Applying txn (op :: todo)) (hdrawn : s.storage.DrawnFor op.key ts)
    (hready : s.storage.Ready) (hsafe : s.storage.SafeLanding ts op) :
    { s with storage := s.storage.land ts op }.Applying txn todo where
  active := h.active
  prepared := h.prepared
  nodup := (List.nodup_cons.mp h.nodup).2
  last := fun op' hop' => h.last op' (List.mem_cons_of_mem _ hop')
  past := by
    intro key effect hget hpast
    show (s.storage.land ts op).newest key = effect
    by_cases heq : key = op.key
    · subst heq
      rw [h.last op (List.mem_cons_self ..)] at hget
      rw [Lsm.newest_land_self hready hsafe hdrawn, Option.some.inj hget]
    · have hold : key ∉ (op :: todo).map BatchOperation.key := by
        rw [List.map_cons, List.mem_cons, not_or]
        exact ⟨heq, hpast⟩
      rw [(Lsm.keepsKey_land hready hsafe heq).newest, h.past key effect hget hold]

end

end MvccEngine

/-! ## The system -/

namespace TxnSystem

/-- What a transaction has written, as one batch, when a step commits it. -/
def batchBy (s : TxnSystem) : TxnStep → Option Op
  | .continueCommit txnId order faults =>
      match s.committing txnId with
      | none => none
      | some (txn, progress) =>
          match (exec (commitStep faults order txn progress) s.engine).1 with
          | .ok none => some (.writeBatch (IterOrder.inserted.operations txn.writeSet))
          | _ => none
  | _ => none

/-- A commit under way has applied its write of the key. -/
def AppliedBy (s : TxnSystem) (txnId : ℕ) (key : Bytes) (effect : Option Bytes) : Prop :=
  ∃ txn progress, s.committing txnId = some (txn, progress) ∧ progress.Past key ∧
    txn.writeSet.get key = some effect

/-- No call of the storage fails, and nothing goes to the storage but by a commit. -/
def Healthy : TxnStep → Prop
  | .continueCommit _ _ faults => faults = noFaults
  | .onStorage _ => False
  | _ => True

/-- Only an active transaction is committed, and no flush changes what is newest. -/
def SerialStep (s : TxnSystem) : TxnStep → Prop
  | .commit txnId _ => ∀ txn ∈ s.unlocked txnId, txn.state = .active
  | .continueCommit txnId _ _ => ∀ commit ∈ s.committing txnId, commit.2.Safe s.engine.storage
  | _ => True

instance (s : TxnSystem) (action : TxnStep) : Decidable (s.SerialStep action) :=
  match action with
  | .commit txnId _ => inferInstanceAs (Decidable (∀ txn ∈ s.unlocked txnId, _))
  | .continueCommit txnId _ _ => inferInstanceAs (Decidable (∀ commit ∈ s.committing txnId, _))
  | .begin _ _ _ => inferInstanceAs (Decidable True)
  | .continueBegin _ _ => inferInstanceAs (Decidable True)
  | .get _ _ => inferInstanceAs (Decidable True)
  | .write _ _ => inferInstanceAs (Decidable True)
  | .abort _ => inferInstanceAs (Decidable True)
  | .advance _ _ => inferInstanceAs (Decidable True)
  | .onStorage _ => inferInstanceAs (Decidable True)

variable {hashKey : Bytes → UInt64} {s : TxnSystem}

theorem frozen_committing (hashKey : Bytes → UInt64) (h : s.Locked) {action : TxnStep}
    {txnId : ℕ} {txn : Transaction} {progress : CommitProgress}
    (hcommitting : s.committing txnId = some (txn, progress))
    (hcontinue : ∀ order faults, action ≠ .continueCommit txnId order faults) :
    (s.step hashKey action).committing txnId = some (txn, progress) := by
  obtain ⟨hlookup, hprogress⟩ := frozen_step hashKey h (lookup_of_committing hcommitting)
    (commits_of_committing hcommitting) hcontinue
  exact committing_eq hprogress hlookup

/-- No other step comes to the commit of a transaction. -/
theorem committing_step (hashKey : Bytes → UInt64) (h : s.Locked) (hunprepared : s.Unprepared)
    {action : TxnStep} {txnId : ℕ}
    (hcommit : ∀ physical, action ≠ .commit txnId physical)
    (hcontinue : ∀ order faults, action ≠ .continueCommit txnId order faults) :
    (s.step hashKey action).committing txnId = s.committing txnId := by
  cases hprogress : s.commits.lookup txnId with
  | none =>
      rw [committing_eq_none hprogress]
      apply committing_eq_none
      by_contra hsome
      obtain ⟨progress, hprogress'⟩ := Option.ne_none_iff_exists'.mp hsome
      obtain ⟨physical, -, haction, -⟩ := commit_of_none hprogress hprogress'
      exact hcommit physical haction
  | some progress =>
      obtain ⟨txn, hlookup⟩ := hunprepared.known txnId progress hprogress
      have hcommitting := committing_eq hprogress hlookup
      rw [frozen_committing hashKey h hcommitting hcontinue, hcommitting]

/-- The storage changes in a commit, or directly. -/
theorem storage_step {action : TxnStep} (hhealthy : Healthy action)
    (hcontinue : ∀ txnId order faults, action ≠ .continueCommit txnId order faults) :
    (s.step hashKey action).engine.storage = s.engine.storage := by
  have heffect := s.step_effect hashKey action
  generalize s.step hashKey action = s' at heffect ⊢
  cases heffect with
  | @gets txnId txn _ key => exact (MvccEngine.touches_get hashKey s.engine txn key).storage
  | @proceeds txnId _ _ order faults => exact absurd rfl (hcontinue txnId order faults)
  | advances _ hadvance =>
      cases hadvance with
      | @records txnId isolation op =>
          show (s.engine.recordWrite hashKey txnId isolation op.key).storage = s.engine.storage
          unfold MvccEngine.recordWrite
          split <;> rfl
      | @aborts txnId isolation =>
          show (s.engine.ssiAbort txnId isolation).storage = s.engine.storage
          unfold MvccEngine.ssiAbort
          split <;> rfl
      | _ => rfl
  | onStorage => exact hhealthy.elim
  | _ => rfl

/-- Whether the commit is still under way when its step is done. -/
theorem committing_proceed (txnId : ℕ)
    (result : Except Error (Option CommitProgress) × MvccEngine) :
    (s.proceed txnId result).committing txnId =
      match result.1 with
      | .ok (some progress) => (result.2.txns.lookup txnId).map fun txn => (txn, progress)
      | _ => none := by
  obtain ⟨result, engine⟩ := result
  have herased : ∀ s' : TxnSystem, s'.commits = s.commits.erase txnId →
      s'.committing txnId = none := by
    intro s' hcommits
    apply committing_eq_none
    rw [hcommits]
    exact AList.lookup_erase _ _
  cases result with
  | error e => exact herased _ rfl
  | ok progress =>
      cases progress with
      | none => exact herased _ rfl
      | some progress =>
          have hprogress : (s.proceed txnId (.ok (some progress), engine)).commits.lookup txnId =
              some progress := AList.lookup_insert _
          rw [committing, hprogress, engine_proceed]
          cases engine.txns.lookup txnId <;> rfl

/-- A commit that is called. -/
theorem committing_commit (hashKey : Bytes → UInt64) {txnId physical : ℕ} {txn : Transaction}
    {progress : CommitProgress} (hnone : s.committing txnId = none)
    (hcommitting : (s.step hashKey (.commit txnId physical)).committing txnId =
      some (txn, progress)) :
    s.unlocked txnId = some txn ∧ ∃ commitTs, progress = .drawn commitTs := by
  rw [step] at hcommitting
  cases hunlocked : s.unlocked txnId with
  | none =>
      rw [hunlocked, hnone] at hcommitting
      contradiction
  | some txn' =>
      rw [hunlocked] at hcommitting
      simp only [committing_proceed] at hcommitting
      have hdrawn : (s.engine.txns.lookup txnId).map (fun txn =>
          (txn, CommitProgress.drawn (s.engine.tsOracle.getTimestamp physical).1)) =
            some (txn, progress) := hcommitting
      rw [lookup_of_unlocked hunlocked] at hdrawn
      obtain ⟨rfl, rfl⟩ := Prod.mk.inj (Option.some.inj hdrawn)
      exact ⟨rfl, _, rfl⟩

/-- The commit of a read-only transaction fails. -/
theorem Unprepared.exec_commitReadOnly (hunprepared : s.Unprepared) {txnId : ℕ} {txn : Transaction}
    (hlookup : s.engine.txns.lookup txnId = some txn)
    (hreadOnly : txn.isolation.isReadOnly = true) :
    exec (MvccEngine.commitReadOnly txn) s.engine = (.error .transactionAborted, s.engine) :=
  MvccEngine.exec_commitReadOnly_of_none _ (hunprepared.commitTs txnId txn hlookup hreadOnly)

end TxnSystem

/-- The end of a commit that is prepared. -/
theorem MvccEngine.exec_managerCommit_ok (s : MvccEngine) {txn : Transaction}
    (hactive : txn.state = .active) (hprepared : ∃ commitTs, txn.commitTs = some commitTs) :
    ∃ engine, exec (managerCommit txn) s = (.ok (), engine) ∧ engine.storage = s.storage := by
  obtain ⟨commitTs, hprepared⟩ := hprepared
  have htouches := touches_managerCommit s txn
  have hmanager := exec_managerCommit s txn
  have hcommits : s.txnManager.commit txn = .ok
      ({ activeTxns := s.txnManager.activeTxns.erase txn.id
         committedTxns :=
           s.txnManager.committedTxns ++ [⟨commitTs, txn.startTs, txn.writeSet.writeKeys⟩] },
        { txn with state := .committed }) := by
    simp [TransactionManager.commit, Transaction.isActive, hactive, hprepared]
  rw [hcommits] at hmanager
  rw [hmanager] at htouches ⊢
  exact ⟨_, rfl, htouches.storage⟩

/-- The system, and what the transactions committed so far have written, in their order. -/
structure SerialHistory where
  system : TxnSystem
  committed : List Op

namespace SerialHistory

/-- A new database without transactions. -/
def init (memtableSize : ℕ) (config : LockConfig) : SerialHistory :=
  { system := TxnSystem.init (Lsm.openDir memtableSize Dir.empty) config, committed := [] }

/-- The system after the step, with the batch of a commit that it has finished. -/
def step (hashKey : Bytes → UInt64) (h : SerialHistory) (action : TxnStep) : SerialHistory :=
  { system := h.system.step hashKey action
    committed := h.committed ++ (h.system.batchBy action).toList }

/-- What a read finds: what a commit under way has written, and for the other keys what is left
when the committed transactions have written one after another. -/
structure Serial (h : SerialHistory) : Prop where
  applied : ∀ txnId key effect, h.system.AppliedBy txnId key effect →
    h.system.engine.storage.get key = effect
  settled : ∀ key, (∀ txnId effect, ¬ h.system.AppliedBy txnId key effect) →
    h.system.engine.storage.get key = lastWrite h.committed key

/-- No commit gets ahead of another one on a key. -/
structure InTurn (h : SerialHistory) : Prop where
  locked : h.system.Locked
  unprepared : h.system.Unprepared
  ready : h.system.engine.storage.Ready
  commits : ∀ txnId txn progress, h.system.committing txnId = some (txn, progress) →
    h.system.engine.InTurn txn progress
  settled : ∀ key, (∀ txnId effect, ¬ h.system.AppliedBy txnId key effect) →
    h.system.engine.storage.newest key = lastWrite h.committed key

theorem inTurn_init (memtableSize : ℕ) (config : LockConfig) :
    (init memtableSize config).InTurn where
  locked := TxnSystem.locked_init _ config
  unprepared := TxnSystem.unprepared_init _ config
  ready := ⟨rfl, fun e he => absurd he List.not_mem_nil⟩
  commits := by
    intro txnId txn progress hcommitting
    contradiction
  settled := fun _ _ => rfl

section

variable {h h' : SerialHistory} {hashKey : Bytes → UInt64}

theorem InTurn.serial (hturn : h.InTurn) : h.Serial where
  applied := by
    intro txnId key effect happlied
    obtain ⟨txn, progress, hcommitting, hpast, hget⟩ := happlied
    have hcommit := hturn.commits txnId txn progress hcommitting
    rw [hturn.ready.get]
    cases progress with
    | drawn commitTs => exact hpast.elim
    | validated commitTs => exact hpast.elim
    | applying todo => exact MvccEngine.Applying.past hcommit key effect hget hpast
    | writing ts op todo => exact hcommit.1.past key effect hget hpast
  settled := fun key hnone => (hturn.ready.get key).trans (hturn.settled key hnone)

/-- A step that keeps the newest values and takes no commit past a write. -/
theorem InTurn.quiet (hturn : h.InTurn) (hlocked : h'.system.Locked)
    (hunprepared : h'.system.Unprepared) (hcommitted : h'.committed = h.committed)
    (hready : h'.system.engine.storage.Ready)
    (hkeeps : ∀ key, Lsm.KeepsKey key h.system.engine.storage h'.system.engine.storage)
    (hcommits : ∀ txnId txn progress, h'.system.committing txnId = some (txn, progress) →
      h.system.committing txnId = some (txn, progress) ∨ h'.system.engine.InTurn txn progress)
    (happlied : ∀ txnId key effect, h.system.AppliedBy txnId key effect →
      h'.system.AppliedBy txnId key effect) : h'.InTurn where
  locked := hlocked
  unprepared := hunprepared
  ready := hready
  commits := by
    intro txnId txn progress hcommitting
    rcases hcommits txnId txn progress hcommitting with hold | hnew
    · exact (hturn.commits txnId txn progress hold).keeps fun key _ => hkeeps key
    · exact hnew
  settled := by
    intro key hnone
    rw [(hkeeps key).newest, hcommitted]
    exact hturn.settled key fun txnId effect hold => hnone txnId effect (happlied _ _ _ hold)

end

/-! ## A step of a commit -/

/-- What the next step of the commit of a transaction leads to, with its result. -/
structure Continues (h h' : SerialHistory) (txn : Transaction)
    (result : Except Error (Option CommitProgress) × MvccEngine) : Prop where
  locked : h'.system.Locked
  unprepared : h'.system.Unprepared
  engine : h'.system.engine = result.2
  own : h'.system.committing txn.id =
    match result.1 with
    | .ok (some progress) => (result.2.txns.lookup txn.id).map fun txn => (txn, progress)
    | _ => none
  others : ∀ other, other ≠ txn.id → h'.system.committing other = h.system.committing other
  committed : h'.committed =
    h.committed ++
      match result.1 with
      | .ok none => [.writeBatch (IterOrder.inserted.operations txn.writeSet)]
      | _ => []

section

variable {h h' : SerialHistory} {txn : Transaction} {progress : CommitProgress}

theorem InTurn.continues (hashKey : Bytes → UInt64) (hturn : h.InTurn)
    (hcommitting : h.system.committing txn.id = some (txn, progress)) (order : IterOrder) :
    Continues h (h.step hashKey (.continueCommit txn.id order noFaults)) txn
      (exec (commitStep noFaults order txn progress) h.system.engine) := by
  have hsystem : (h.step hashKey (.continueCommit txn.id order noFaults)).system =
      h.system.proceed txn.id (exec (commitStep noFaults order txn progress) h.system.engine) := by
    show h.system.step hashKey (.continueCommit txn.id order noFaults) = _
    rw [TxnSystem.step, hcommitting]
  have hlocked := hturn.locked.step hashKey (.continueCommit txn.id order noFaults)
  have hunprepared :=
    hturn.unprepared.step hashKey hturn.locked (.continueCommit txn.id order noFaults)
  refine ⟨hlocked, hunprepared, ?_, ?_, ?_, ?_⟩
  · rw [hsystem, TxnSystem.engine_proceed]
  · rw [hsystem, TxnSystem.committing_proceed]
  · intro other hne
    apply TxnSystem.committing_step hashKey hturn.locked hturn.unprepared
    · intro physical heq
      contradiction
    · intro order' faults heq
      injection heq with hid
      exact hne hid.symm
  · show h.committed ++ (h.system.batchBy (.continueCommit txn.id order noFaults)).toList = _
    rw [TxnSystem.batchBy, hcommitting]
    simp only
    split <;> rfl

variable {result : Except Error (Option CommitProgress) × MvccEngine}

/-- What has been applied of another transaction. -/
theorem Continues.appliedBy (hcontinues : Continues h h' txn result) {other : ℕ}
    (hne : other ≠ txn.id) {key : Bytes} {effect : Option Bytes} :
    h'.system.AppliedBy other key effect ↔ h.system.AppliedBy other key effect := by
  unfold TxnSystem.AppliedBy
  rw [hcontinues.others other hne]

/-- The commit goes on. -/
theorem Continues.own_some (hcontinues : Continues h h' txn result) {txn' : Transaction}
    {progress' : CommitProgress} (hresult : result.1 = .ok (some progress'))
    (hlookup : result.2.txns.lookup txn.id = some txn') :
    h'.system.committing txn.id = some (txn', progress') := by
  rw [hcontinues.own, hresult]
  simp only [hlookup, Option.map_some]

theorem Continues.of_own (hcontinues : Continues h h' txn result) {txn' : Transaction}
    {progress' : CommitProgress} (hown : h'.system.committing txn.id = some (txn', progress')) :
    result.1 = .ok (some progress') ∧ result.2.txns.lookup txn.id = some txn' := by
  rw [hcontinues.own] at hown
  split at hown
  · next progress hresult =>
      obtain ⟨txn'', hlookup, heq⟩ := Option.map_eq_some_iff.mp hown
      obtain ⟨rfl, rfl⟩ := Prod.mk.inj heq
      exact ⟨hresult, hlookup⟩
  · contradiction

/-- The write sets of two commits have no key in common. -/
theorem InTurn.not_mem_writeKeys (hturn : h.InTurn)
    (hcommitting : h.system.committing txn.id = some (txn, progress)) {other : ℕ}
    (hne : other ≠ txn.id) {txn' : Transaction} {progress' : CommitProgress}
    (hother : h.system.committing other = some (txn', progress')) {key : Bytes}
    (hkey : key ∈ txn.writeSet.writeKeys) : key ∉ txn'.writeSet.writeKeys := by
  intro hkey'
  have hactive := (hturn.commits txn.id txn progress hcommitting).active
  have hactive' := (hturn.commits other txn' progress' hother).active
  exact hne (hturn.locked.eq_of_common (TxnSystem.lookup_of_committing hother)
    (TxnSystem.lookup_of_committing hcommitting) hactive' hactive hkey' hkey)

/-- A step that applies nothing and does not come to the end. -/
theorem Continues.quiet (hcontinues : Continues h h' txn result) (hturn : h.InTurn)
    (hcommitting : h.system.committing txn.id = some (txn, progress)) (hgoes : result.1 ≠ .ok none)
    (hready : result.2.storage.Ready)
    (hkeeps : ∀ key, Lsm.KeepsKey key h.system.engine.storage result.2.storage)
    (hnext : ∀ progress', result.1 = .ok (some progress') →
      ∃ txn', result.2.txns.lookup txn.id = some txn' ∧ txn'.writeSet = txn.writeSet ∧
        result.2.InTurn txn' progress')
    (hpast : ∀ key, progress.Past key →
      ∃ progress', result.1 = .ok (some progress') ∧ progress'.Past key) : h'.InTurn := by
  apply hturn.quiet hcontinues.locked hcontinues.unprepared
  · rw [hcontinues.committed]
    split
    · next hresult => exact absurd hresult hgoes
    · exact List.append_nil _
  · rw [hcontinues.engine]
    exact hready
  · rw [hcontinues.engine]
    exact hkeeps
  · intro other txn' progress' hother
    -- the commit itself goes on; the others are where they were
    by_cases heq : other = txn.id
    · subst heq
      obtain ⟨hresult, hlookup⟩ := hcontinues.of_own hother
      obtain ⟨txn'', hlookup', -, hinTurn⟩ := hnext progress' hresult
      obtain rfl : txn' = txn'' := Option.some.inj (hlookup.symm.trans hlookup')
      rw [hcontinues.engine]
      exact Or.inr hinTurn
    · exact Or.inl (hcontinues.others other heq ▸ hother)
  · intro other key effect happlied
    by_cases heq : other = txn.id
    · subst heq
      obtain ⟨txn₀, progress₀, hcommitting₀, hold, hget⟩ := happlied
      rw [hcommitting] at hcommitting₀
      obtain ⟨rfl, rfl⟩ := Prod.mk.inj (Option.some.inj hcommitting₀)
      obtain ⟨progress', hresult, hpast'⟩ := hpast key hold
      obtain ⟨txn', hlookup, hwriteSet, -⟩ := hnext progress' hresult
      refine ⟨txn', progress', hcontinues.own_some hresult hlookup, hpast', ?_⟩
      rw [hwriteSet]
      exact hget
    · exact (hcontinues.appliedBy heq).mpr happlied

/-- A write is applied. -/
theorem Continues.lands (hcontinues : Continues h h' txn result) (hturn : h.InTurn) {ts : ℕ}
    {op : BatchOperation} {todo : List BatchOperation}
    (hcommitting : h.system.committing txn.id = some (txn, .writing ts op todo))
    (hsafe : h.system.engine.storage.SafeLanding ts op)
    (hresult : result = (.ok (some (.applying todo)),
      { h.system.engine with storage := h.system.engine.storage.land ts op })) : h'.InTurn := by
  subst hresult
  obtain ⟨happlying, hdrawn⟩ := hturn.commits txn.id txn _ hcommitting
  have hget := happlying.last op (List.mem_cons_self ..)
  have hkey : op.key ∈ txn.writeSet.writeKeys := WriteSet.mem_writeKeys_of_get hget
  have hown : h'.system.committing txn.id = some (txn, .applying todo) :=
    hcontinues.own_some rfl (TxnSystem.lookup_of_committing hcommitting)
  have hengine := hcontinues.engine
  have hkeeps : ∀ key, key ≠ op.key →
      Lsm.KeepsKey key h.system.engine.storage h'.system.engine.storage := by
    intro key hne
    rw [hengine]
    exact Lsm.keepsKey_land hturn.ready hsafe hne
  refine ⟨hcontinues.locked, hcontinues.unprepared, ?_, ?_, ?_⟩
  · rw [hengine]
    exact hturn.ready.land hdrawn.drawn hsafe
  · intro other txn' progress' hother
    by_cases heq : other = txn.id
    · subst heq
      rw [hown] at hother
      obtain ⟨rfl, rfl⟩ := Prod.mk.inj (Option.some.inj hother)
      rw [hengine]
      exact happlying.lands hdrawn hturn.ready hsafe
    · rw [hcontinues.others other heq] at hother
      apply (hturn.commits other txn' progress' hother).keeps
      intro key hkey'
      apply hkeeps
      rintro rfl
      exact hturn.not_mem_writeKeys hcommitting heq hother hkey hkey'
  · intro key hnone
    -- the key of the write is one that has been applied
    have hne : key ≠ op.key := by
      rintro rfl
      exact hnone txn.id op.effect
        ⟨txn, .applying todo, hown, (List.nodup_cons.mp happlying.nodup).1, hget⟩
    rw [(hkeeps key hne).newest, hcontinues.committed, List.append_nil]
    apply hturn.settled
    intro other effect happlied
    by_cases heq : other = txn.id
    · subst heq
      obtain ⟨txn₀, progress₀, hcommitting₀, hpast, hget₀⟩ := happlied
      rw [hcommitting] at hcommitting₀
      obtain ⟨rfl, rfl⟩ := Prod.mk.inj (Option.some.inj hcommitting₀)
      exact hnone txn.id effect
        ⟨txn, .applying todo, hown, fun hmem => hpast (List.mem_cons_of_mem _ hmem), hget₀⟩
    · exact hnone other effect ((hcontinues.appliedBy heq).mpr happlied)

theorem lastWrite_concat (ops : List Op) (op : Op) (key : Bytes) :
    lastWrite (ops ++ [op]) key = op.overwrite (lastWrite ops) key := by
  unfold lastWrite
  rw [Run.run_append]
  rfl

/-- The commit comes to its end, and its batch is what it has applied. -/
theorem Continues.finishes (hcontinues : Continues h h' txn result) (hturn : h.InTurn)
    (hcommitting : h.system.committing txn.id = some (txn, .applying []))
    {engine : MvccEngine} (hstorage : engine.storage = h.system.engine.storage)
    (hresult : result = (.ok none, engine)) : h'.InTurn := by
  subst hresult
  have happlying : h.system.engine.Applying txn [] := hturn.commits txn.id txn _ hcommitting
  have hkeeps : h'.system.engine.storage = h.system.engine.storage := by
    rw [hcontinues.engine]
    exact hstorage
  refine ⟨hcontinues.locked, hcontinues.unprepared, ?_, ?_, ?_⟩
  · rw [hkeeps]
    exact hturn.ready
  · intro other txn' progress' hother
    by_cases heq : other = txn.id
    · subst heq
      exact absurd (hcontinues.of_own hother).1 (by simp)
    · rw [hcontinues.others other heq] at hother
      apply (hturn.commits other txn' progress' hother).keeps
      intro key _
      rw [hkeeps]
      exact Lsm.KeepsKey.refl key _
  · intro key hnone
    rw [hkeeps, hcontinues.committed, lastWrite_concat]
    -- the batch overwrites the keys of the write set and no others
    have hbatch : (Op.writeBatch (IterOrder.inserted.operations txn.writeSet)).overwrite
        (lastWrite h.committed) key = (txn.writeSet.get key).getD (lastWrite h.committed key) :=
      foldl_overwrite (fun op => IterOrder.mem_operations_iff) _ key
    rw [hbatch]
    cases hget : txn.writeSet.get key with
    | some effect => exact happlying.past key effect hget List.not_mem_nil
    | none =>
        apply hturn.settled
        intro other effect happlied
        -- its own write set has no such key, and nobody else applies one
        by_cases heq : other = txn.id
        · subst heq
          obtain ⟨txn₀, progress₀, hcommitting₀, -, hget₀⟩ := happlied
          rw [hcommitting] at hcommitting₀
          obtain ⟨rfl, rfl⟩ := Prod.mk.inj (Option.some.inj hcommitting₀)
          rw [hget] at hget₀
          contradiction
        · exact hnone other effect ((hcontinues.appliedBy heq).mpr happlied)

/-- A step of a commit whose flush is safe. -/
theorem InTurn.continueCommit (hashKey : Bytes → UInt64) (hturn : h.InTurn)
    (hcommitting : h.system.committing txn.id = some (txn, progress)) (order : IterOrder)
    (hsafe : progress.Safe h.system.engine.storage) :
    (h.step hashKey (.continueCommit txn.id order noFaults)).InTurn := by
  have hcontinues := hturn.continues hashKey hcommitting order
  have hlookup := TxnSystem.lookup_of_committing hcommitting
  have hcommit := hturn.commits txn.id txn progress hcommitting
  have hpart := commitStep_part noFaults order h.system.engine txn progress
  generalize exec (commitStep noFaults order txn progress) h.system.engine = result
    at hcontinues hpart
  cases hpart with
  | readOnly commitTs hreadOnly =>
      -- a read-only transaction has no commit timestamp
      rw [hturn.unprepared.exec_commitReadOnly hlookup hreadOnly] at hcontinues
      refine hcontinues.quiet hturn hcommitting (by simp [Except.map]) hturn.ready
        (fun key => Lsm.KeepsKey.refl key _) ?_ (fun _ hpast => hpast.elim)
      intro progress' hresult
      contradiction
  | validates commitTs hserializable =>
      have htouches := MvccEngine.touches_validateSsi h.system.engine txn commitTs
      have htxns : (exec (MvccEngine.validateSsi txn commitTs) h.system.engine).2.txns =
          h.system.engine.txns := by
        rw [MvccEngine.exec_validateSsi _ commitTs hserializable]
      generalize exec (MvccEngine.validateSsi txn commitTs) h.system.engine = validated
        at hcontinues htouches htxns
      obtain ⟨verdict, engine⟩ := validated
      have hstorage : engine.storage = h.system.engine.storage := htouches.storage
      refine hcontinues.quiet hturn hcommitting (MvccEngine.map_some_ne _ _)
        (hstorage ▸ hturn.ready) (fun key => hstorage ▸ Lsm.KeepsKey.refl key _) ?_ (fun _ hpast => hpast.elim)
      intro progress' hresult
      refine ⟨txn, htxns ▸ hlookup, rfl, ?_⟩
      cases verdict with
      | error e => contradiction
      | ok _ =>
          obtain rfl := Option.some.inj (Except.ok.inj hresult)
          exact hcommit
  | skips commitTs hwritable hother =>
      refine hcontinues.quiet hturn hcommitting (by simp) hturn.ready
        (fun key => Lsm.KeepsKey.refl key _) ?_ (fun _ hpast => hpast.elim)
      intro progress' hresult
      obtain rfl := Option.some.inj (Except.ok.inj hresult)
      exact ⟨txn, hlookup, rfl, hcommit⟩
  | prepares commitTs hprepared =>
      refine hcontinues.quiet hturn hcommitting (by simp) hturn.ready
        (fun key => Lsm.KeepsKey.refl key _) ?_ (fun _ hpast => hpast.elim)
      intro progress' hresult
      obtain rfl := Option.some.inj (Except.ok.inj hresult)
      refine ⟨{ txn with commitTs := some commitTs }, AList.lookup_insert _, rfl, ?_⟩
      exact MvccEngine.applying_operations _ order hcommit ⟨commitTs, rfl⟩
  | refuses commitTs hrefused =>
      refine hcontinues.quiet hturn hcommitting (by simp) hturn.ready
        (fun key => Lsm.KeepsKey.refl key _) ?_ (fun _ hpast => hpast.elim)
      intro progress' hresult
      contradiction
  | finishes =>
      have happlying : h.system.engine.Applying txn [] := hcommit
      obtain ⟨engine, hmanager, hstorage⟩ :=
        MvccEngine.exec_managerCommit_ok h.system.engine happlying.active happlying.prepared
      rw [hmanager] at hcontinues
      exact hcontinues.finishes hturn hcommitting hstorage rfl
  | draws op todo =>
      have happlying : h.system.engine.Applying txn (op :: todo) := hcommit
      refine hcontinues.quiet hturn hcommitting (by simp) (hturn.ready.advance 1)
        (fun key => Lsm.keepsKey_advance key _ 1) ?_ (fun _ hpast => ⟨_, rfl, hpast⟩)
      intro progress' hresult
      obtain rfl := Option.some.inj (Except.ok.inj hresult)
      exact ⟨txn, hlookup, rfl, happlying.draws hturn.ready⟩
  | writes ts op todo =>
      rw [Lsm.exec_writeAt] at hcontinues
      exact hcontinues.lands hturn hcommitting hsafe rfl

end

/-! ## All steps -/

/-- A step of the engine other than of a commit. -/
theorem InTurn.other (hashKey : Bytes → UInt64) {h : SerialHistory} (hturn : h.InTurn)
    {action : TxnStep} (hhealthy : TxnSystem.Healthy action) (hserial : h.system.SerialStep action)
    (hcontinue : ∀ txnId order faults, action ≠ .continueCommit txnId order faults) :
    (h.step hashKey action).InTurn := by
  have hstorage : (h.step hashKey action).system.engine.storage = h.system.engine.storage :=
    TxnSystem.storage_step hhealthy hcontinue
  -- a batch comes by a step of its commit
  have hnothing : h.system.batchBy action = none := by
    cases action with
    | continueCommit txnId order faults => exact absurd rfl (hcontinue txnId order faults)
    | _ => rfl
  apply hturn.quiet (hturn.locked.step hashKey action)
    (hturn.unprepared.step hashKey hturn.locked action)
  · show h.committed ++ (h.system.batchBy action).toList = h.committed
    rw [hnothing]
    exact List.append_nil _
  · rw [hstorage]
    exact hturn.ready
  · intro key
    rw [hstorage]
    exact Lsm.KeepsKey.refl key _
  · intro txnId txn progress hcommitting
    cases hold : h.system.committing txnId with
    | some commit =>
        have hsame := TxnSystem.frozen_committing hashKey hturn.locked hold
          (hcontinue txnId)
        exact Or.inl (hsame.symm.trans hcommitting)
    | none =>
        by_cases hcommit : ∃ physical, action = .commit txnId physical
        · obtain ⟨physical, rfl⟩ := hcommit
          -- a commit that begins here has applied nothing
          obtain ⟨hunlocked, commitTs, rfl⟩ := TxnSystem.committing_commit hashKey hold hcommitting
          exact Or.inr (hserial txn hunlocked)
        · push Not at hcommit
          have hsame := TxnSystem.committing_step hashKey hturn.locked
            hturn.unprepared hcommit (hcontinue txnId)
          exact Or.inl (hold.symm.trans (hsame.symm.trans hcommitting))
  · rintro txnId key effect ⟨txn, progress, hcommitting, hpast, hget⟩
    have hsame := TxnSystem.frozen_committing hashKey hturn.locked hcommitting
      (hcontinue txnId)
    exact ⟨txn, progress, hsame, hpast, hget⟩

theorem InTurn.step (hashKey : Bytes → UInt64) {h : SerialHistory} (hturn : h.InTurn)
    {action : TxnStep} (hhealthy : TxnSystem.Healthy action)
    (hserial : h.system.SerialStep action) : (h.step hashKey action).InTurn := by
  by_cases hcontinue : ∃ txnId order faults, action = .continueCommit txnId order faults
  · obtain ⟨txnId, order, faults, rfl⟩ := hcontinue
    obtain rfl : faults = noFaults := hhealthy
    cases hcommitting : h.system.committing txnId with
    | none =>
        have hsame : h.step hashKey (.continueCommit txnId order noFaults) = h := by
          obtain ⟨system, committed⟩ := h
          have hcommitting : system.committing txnId = none := hcommitting
          rw [SerialHistory.step]
          simp only [TxnSystem.step, TxnSystem.batchBy, hcommitting, Option.toList_none,
            List.append_nil]
        rw [hsame]
        exact hturn
    | some commit =>
        obtain ⟨txn, progress⟩ := commit
        obtain rfl := hturn.locked.ids txnId txn (TxnSystem.lookup_of_committing hcommitting)
        exact hturn.continueCommit hashKey hcommitting order (hserial (txn, progress) hcommitting)
  · push Not at hcontinue
    exact hturn.other hashKey hhealthy hserial hcontinue

/-- After every run in which only active transactions are committed, no call of the storage fails
and no flush changes what is newest, the storage is what the transactions committed so far have
written one after another, but for what a commit under way has applied already. -/
theorem serial_run (hashKey : Bytes → UInt64) (memtableSize : ℕ) (config : LockConfig)
    (steps : List TxnStep) (hhealthy : ∀ action ∈ steps, TxnSystem.Healthy action)
    (hserial : Run.Along (step hashKey) (fun h action => h.system.SerialStep action)
      (init memtableSize config) steps) :
    (Run.run (step hashKey) (init memtableSize config) steps).Serial := by
  have hboth := (Run.along_of_forall hhealthy (init memtableSize config)).and hserial
  have hturn : (Run.run (step hashKey) (init memtableSize config) steps).InTurn :=
    hboth.invariant InTurn (fun _ _ hturn hstep => hturn.step hashKey hstep.1 hstep.2)
      (inTurn_init memtableSize config)
  exact hturn.serial

/-! ## Two commits side by side -/

/-- A number of steps of a commit. -/
def continueCommits (txnId count : ℕ) : List TxnStep :=
  List.replicate count (.continueCommit txnId .inserted noFaults)

/-- The runs of the examples, with one hash for all keys. -/
def runOf (steps : List TxnStep) : SerialHistory :=
  Run.run (step fun _ => 0) (init 100 LockConfig.default) steps

/-- The first has drawn its timestamp when the second applies its write; the first comes to its
end, and the second does not. -/
def interleaved : List TxnStep :=
  CommitHistory.beginSnapshot 1 ++ CommitHistory.beginSnapshot 2 ++
    CommitHistory.putKey 1 0 [7] ++ CommitHistory.putKey 2 1 [8] ++ [.commit 1 1, .commit 2 2] ++
    continueCommits 1 3 ++ continueCommits 2 4 ++ continueCommits 1 2

theorem serial_interleaved : (runOf interleaved).Serial :=
  serial_run _ 100 _ interleaved
    (by simp [interleaved, continueCommits, CommitHistory.beginSnapshot, CommitHistory.putKey,
      TxnSystem.Healthy])
    (by decide +kernel)

example : (runOf interleaved).system.engine.storage.get [7] = some [1] ∧
    lastWrite (runOf interleaved).committed [7] = some [1] ∧
    (runOf interleaved).system.engine.storage.get [8] = some [1] ∧
    lastWrite (runOf interleaved).committed [8] = none := by
  decide +kernel

/-- A commit that is called on an aborted transaction fails, and its writes are there. -/
def abortedCommit : List TxnStep :=
  CommitHistory.beginSnapshot 1 ++ CommitHistory.putKey 1 0 [7] ++ [.abort 1, .commit 1 1] ++
    continueCommits 1 5

example : (runOf abortedCommit).system.engine.storage.get [7] = some [1] ∧
    lastWrite (runOf abortedCommit).committed [7] = none := by
  decide +kernel

end SerialHistory
end Crabstash

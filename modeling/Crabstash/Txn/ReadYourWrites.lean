import Crabstash.Txn.Changes

/-!
# A transaction and its own writes

A write set is two collections, and what makes it one map is that they have no key in common:
`WriteSet.get` is then the last effect of each key (`get_apply`), and an operation of the commit
is there if and only if it is the last one of its key (`mem_operations_iff`).  So no two of them
disagree on a key, and the order in which the collections are iterated makes no difference
(`foldl_overwrite`).

`WriteHistory` records beside the run which writes have been stored for which transaction, in
their order.  The write set of a transaction is at any time the map of its last effects
(`Recorded`), whatever the other transactions do in between.
-/

namespace Crabstash

open Crabstash.Action

/-! ## Write sets as maps -/

namespace WriteSet

variable (w : WriteSet)

theorem get_put (key value key' : Bytes) :
    (w.put key value).get key' = if key' = key then some (some value) else w.get key' := by
  have hdeletes : key' ∈ (w.put key value).deletes ↔ key' ≠ key ∧ key' ∈ w.deletes :=
    w.nodup.mem_erase_iff
  unfold get
  simp only [List.contains_iff_mem, hdeletes]
  by_cases heq : key' = key
  · subst heq
    simp [put]
  · simp [put, heq, AList.lookup_insert_ne]

theorem get_delete (key key' : Bytes) :
    (w.delete key).get key' = if key' = key then some none else w.get key' := by
  have hdeletes : key' ∈ (w.delete key).deletes ↔ key' = key ∨ key' ∈ w.deletes :=
    List.mem_insert_iff
  unfold get
  simp only [List.contains_iff_mem, hdeletes]
  by_cases heq : key' = key
  · simp [heq]
  · simp [delete, heq, AList.lookup_erase_ne]

/-- The last operation on a key decides. -/
theorem get_apply (op : BatchOperation) (key : Bytes) :
    (w.apply op).get key = if key = op.key then some op.effect else w.get key := by
  cases op with
  | put key' value => exact get_put w key' value key
  | delete key' => exact get_delete w key' key

variable {w}

theorem get_eq_some_none_iff {key : Bytes} : w.get key = some none ↔ key ∈ w.deletes := by
  unfold get
  by_cases hdeleted : key ∈ w.deletes <;> simp [hdeleted]

theorem get_eq_some_some_iff {key value : Bytes} :
    w.get key = some (some value) ↔ w.puts.lookup key = some value := by
  unfold get
  by_cases hdeleted : key ∈ w.deletes
  · have hnone : w.puts.lookup key = none := by
      rw [AList.lookup_eq_none]
      exact w.disjoint key hdeleted
    simp [hdeleted, hnone]
  · simp [hdeleted]

end WriteSet

/-- The operations of a commit are the last effects, in whatever order the two collections are
iterated. -/
theorem IterOrder.mem_operations_iff {order : IterOrder} {w : WriteSet} {op : BatchOperation} :
    op ∈ order.operations w ↔ w.get op.key = some op.effect := by
  unfold operations
  rw [List.mem_append, List.mem_map, List.mem_map]
  cases op with
  | put key value =>
      have hput : (key, value) ∈ order.puts w ↔ w.puts.lookup key = some value := by
        rw [(order.puts_perm w).mem_iff, WriteSet.iterPuts, List.mem_map, ← Option.mem_def,
          AList.mem_lookup_iff]
        constructor
        · rintro ⟨e, he, heq⟩
          obtain ⟨rfl, rfl⟩ := Prod.mk.inj heq
          exact he
        · exact fun he => ⟨⟨key, value⟩, he, rfl⟩
      rw [BatchOperation.key, BatchOperation.effect, WriteSet.get_eq_some_some_iff, ← hput]
      simp
  | delete key =>
      have hdelete : key ∈ order.deletes w ↔ key ∈ w.deletes := (order.deletes_perm w).mem_iff
      rw [BatchOperation.key, BatchOperation.effect, WriteSet.get_eq_some_none_iff, ← hdelete]
      simp

theorem foldl_overwrite_of_ne {ops : List BatchOperation} {key : Bytes}
    (hne : ∀ op ∈ ops, op.key ≠ key) (m : Bytes → Option Bytes) :
    ops.foldl overwrite m key = m key := by
  induction ops generalizing m with
  | nil => rfl
  | cons op rest ih =>
      rw [List.forall_mem_cons] at hne
      rw [List.foldl_cons, ih hne.2, overwrite, Function.update_of_ne (Ne.symm hne.1)]

theorem foldl_overwrite_of_mem {ops : List BatchOperation} {key : Bytes} {effect : Option Bytes}
    (hmem : ∃ op ∈ ops, op.key = key) (hagree : ∀ op ∈ ops, op.key = key → op.effect = effect)
    (m : Bytes → Option Bytes) : ops.foldl overwrite m key = effect := by
  induction ops generalizing m with
  | nil =>
      obtain ⟨op, hop, -⟩ := hmem
      contradiction
  | cons op rest ih =>
      rw [List.forall_mem_cons] at hagree
      rw [List.foldl_cons]
      by_cases hlater : ∃ op ∈ rest, op.key = key
      · exact ih hlater hagree.2 _
      · -- the first operation is the only one on the key
        push Not at hlater
        obtain ⟨op', hop', hkey⟩ := hmem
        obtain rfl : op' = op := (List.mem_cons.mp hop').resolve_right fun hrest =>
          hlater op' hrest hkey
        rw [foldl_overwrite_of_ne hlater, overwrite, hkey, Function.update_self]
        exact hagree.1 hkey

/-- Operations that agree on every key can be applied in any order. -/
theorem foldl_overwrite {last : Bytes → Option (Option Bytes)} {ops : List BatchOperation}
    (hops : ∀ op, op ∈ ops ↔ last op.key = some op.effect) (m : Bytes → Option Bytes)
    (key : Bytes) : ops.foldl overwrite m key = (last key).getD (m key) := by
  cases hlast : last key with
  | none =>
      apply foldl_overwrite_of_ne
      rintro op hop rfl
      rw [(hops op).mp hop] at hlast
      contradiction
  | some effect =>
      apply foldl_overwrite_of_mem
      · cases effect with
        | some value => exact ⟨.put key value, (hops _).mpr hlast, rfl⟩
        | none => exact ⟨.delete key, (hops _).mpr hlast, rfl⟩
      · rintro op hop rfl
        exact Option.some.inj (((hops op).mp hop).symm.trans hlast)

/-! ## The calls of the storage -/

/-- The calls of `put` and `delete` that lead from one storage to another, each of which has
returned `Ok`, and what they make of a map in which the last write of a key wins. -/
inductive Overwrites : (ℕ → Faults IoCall) → Lsm → (Bytes → Option Bytes) →
    Lsm → (Bytes → Option Bytes) → Prop
  | done {faults : ℕ → Faults IoCall} {s : Lsm} {m : Bytes → Option Bytes} :
      Overwrites faults s m s m
  | call {faults : ℕ → Faults IoCall} {s s' s'' : Lsm} {m m' : Bytes → Option Bytes}
      {op : BatchOperation}
      (hcall : exec (MvccEngine.applyWrite (faults 0) op) s = (.ok (), s'))
      (hrest : Overwrites (fun n => faults (n + 1)) s' (overwrite m op) s'' m') :
      Overwrites faults s m s'' m'

namespace MvccEngine

theorem overwrites_applyWrites {ops : List BatchOperation} {faults : ℕ → Faults IoCall}
    {s s' : MvccEngine} (hok : exec (applyWrites faults ops) s = (.ok (), s'))
    (m : Bytes → Option Bytes) :
    Overwrites faults s.storage m s'.storage (ops.foldl overwrite m) := by
  induction ops generalizing faults s m with
  | nil =>
      obtain rfl := (Prod.mk.inj hok).2
      exact .done
  | cons op rest ih =>
      obtain ⟨_, s₁, hfirst, hrest⟩ := of_exec_bind_ok hok
      rw [exec_onStorage] at hfirst
      obtain ⟨hresult, rfl⟩ := Prod.mk.inj hfirst
      exact .call (Prod.ext hresult rfl) (ih hrest (overwrite m op))

/-- A commit that returns `Ok`, if it is not of a read-only transaction, has applied the
operations of the write set one after the other. -/
theorem overwrites_commit {order : IterOrder} {faults : ℕ → Faults IoCall} {s s' : MvccEngine}
    {txn : Transaction} {physical : ℕ} (hwritable : ¬ txn.isolation.isReadOnly = true)
    (hok : exec (commit order faults txn physical) s = (.ok (), s')) (m : Bytes → Option Bytes) :
    Overwrites faults s.storage m s'.storage ((order.operations txn.writeSet).foldl overwrite m) := by
  rw [exec_commit_write s physical hwritable] at hok
  obtain ⟨_, s₁, hvalidated, hok⟩ := of_exec_bind_ok hok
  obtain ⟨txn', s₂, hprepared, hok⟩ := of_exec_bind_ok hok
  obtain ⟨_, s₃, happlied, hcommitted⟩ := of_exec_bind_ok hok
  have hwriteSet : txn'.writeSet = txn.writeSet ∧ s₂.storage = s₁.storage := by
    rw [exec_prepareCommit] at hprepared
    split at hprepared
    · next txn₁ hprepare =>
        obtain ⟨hresult, rfl⟩ := Prod.mk.inj hprepared
        obtain rfl := Except.ok.inj hresult
        rw [TransactionManager.prepareCommit_ok hprepare]
        exact ⟨rfl, rfl⟩
    · cases hprepared
  -- the other parts leave the storage alone
  have hbefore : s₁.storage = s.storage := by
    have htouches := touches_validateSsi (s.drawn physical) txn (s.tsOracle.getTimestamp physical).1
    rw [hvalidated] at htouches
    exact htouches.storage
  have hafter : s'.storage = s₃.storage := by
    have htouches := touches_managerCommit s₃ txn'
    rw [hcommitted] at htouches
    exact htouches.storage
  have hrun := overwrites_applyWrites happlied m
  rwa [hwriteSet.1, hwriteSet.2, hbefore, ← hafter] at hrun

end MvccEngine

/-! ## The history -/

/-- The system, and the writes that have been stored for its transactions, the last one at the
end. -/
structure WriteHistory where
  system : TxnSystem
  stored : List (ℕ × BatchOperation)

namespace WriteHistory

/-- No transaction has begun. -/
def init (storage : Lsm) (config : LockConfig) : WriteHistory :=
  { system := TxnSystem.init storage config, stored := [] }

/-- The system after the step, with the write that it has stored in a write set. -/
def step (hashKey : Bytes → UInt64) (h : WriteHistory) (action : TxnStep) : WriteHistory :=
  { system := h.system.step hashKey action
    stored := h.stored ++ (h.system.writtenBy action).toList }

/-- The effect of the last operation of a transaction on a key, if there was one. -/
def lastEffect (h : WriteHistory) (txnId : ℕ) (key : Bytes) : Option (Option Bytes) :=
  (h.stored.reverse.find? fun write => decide (write.1 = txnId ∧ write.2.key = key)).map
    fun write => write.2.effect

/-- A transaction reads what it has written last. -/
def ReadsOwnWrites (hashKey : Bytes → UInt64) (h : WriteHistory) : Prop :=
  ∀ txnId txn key effect, h.system.engine.txns.lookup txnId = some txn →
    h.lastEffect txnId key = some effect → (h.system.engine.get hashKey txn key).1 = effect

/-- A commit that returns `Ok` takes a map to the map with the last effects of the transaction,
however its write set is iterated. -/
def CommitsLastEffects (h : WriteHistory) : Prop :=
  ∀ txnId txn order faults physical engine, h.system.engine.txns.lookup txnId = some txn →
    exec (MvccEngine.commit order faults txn physical) h.system.engine = (.ok (), engine) →
      ∀ m, ∃ m', Overwrites faults h.system.engine.storage m engine.storage m' ∧
        ∀ key, m' key = (h.lastEffect txnId key).getD (m key)

/-- The write set of a transaction is the map of its last effects. -/
structure Recorded (h : WriteHistory) : Prop where
  locked : h.system.Locked
  unprepared : h.system.Unprepared
  known : ∀ write ∈ h.stored, h.system.Known write.1
  writeSet : ∀ txnId txn, h.system.engine.txns.lookup txnId = some txn →
    ∀ key, txn.writeSet.get key = h.lastEffect txnId key

theorem recorded_init (storage : Lsm) (config : LockConfig) : (init storage config).Recorded where
  locked := TxnSystem.locked_init storage config
  unprepared := TxnSystem.unprepared_init storage config
  known := by
    intro write hwrite
    contradiction
  writeSet := by
    intro txnId txn hlookup
    contradiction

section

variable {h : WriteHistory} {hashKey : Bytes → UInt64} {action : TxnStep}

theorem lastEffect_step (txnId : ℕ) (key : Bytes) :
    (h.step hashKey action).lastEffect txnId key =
      match h.system.writtenBy action with
      | some (other, op) =>
          if other = txnId ∧ op.key = key then some op.effect else h.lastEffect txnId key
      | none => h.lastEffect txnId key := by
  unfold lastEffect step
  cases h.system.writtenBy action with
  | none => simp
  | some write =>
      rw [Option.toList_some, List.reverse_append, List.reverse_singleton, List.singleton_append,
        List.find?_cons]
      by_cases hself : write.1 = txnId ∧ write.2.key = key
      · simp [hself]
      · simp [hself]

/-- Nothing is recorded for a transaction that has not begun. -/
theorem Recorded.lastEffect_eq_none (hrecorded : h.Recorded) {txnId : ℕ}
    (hnone : h.system.engine.txns.lookup txnId = none) (key : Bytes) :
    h.lastEffect txnId key = none := by
  rw [lastEffect, Option.map_eq_none_iff, List.find?_eq_none]
  intro write hwrite
  have hknown := hrecorded.known write (List.mem_reverse.mp hwrite)
  have hne : write.1 ≠ txnId := by
    rintro rfl
    obtain ⟨txn, hlookup⟩ := hknown
    rw [hnone] at hlookup
    contradiction
  simp [hne]

theorem Recorded.writeSet_step (hrecorded : h.Recorded) {txnId : ℕ} {txn' : Transaction}
    (hlookup' : (h.step hashKey action).system.engine.txns.lookup txnId = some txn') (key : Bytes) :
    txn'.writeSet.get key = (h.step hashKey action).lastEffect txnId key := by
  rw [lastEffect_step]
  cases hlookup : h.system.engine.txns.lookup txnId with
  | none =>
      obtain ⟨_, _, _, _, rfl, -, rfl⟩ :=
        TxnSystem.begun_step hashKey hrecorded.locked hlookup hlookup'
      exact (hrecorded.lastEffect_eq_none hlookup key).symm
  | some txn =>
      obtain rfl := hrecorded.locked.ids txnId txn hlookup
      obtain ⟨txn'', hlookup'', hchange⟩ :=
        TxnSystem.change_step hashKey hrecorded.locked hlookup action
      obtain rfl : txn' = txn'' := Option.some.inj (hlookup'.symm.trans hlookup'')
      have hold := hrecorded.writeSet txn.id txn hlookup key
      cases hchange with
      | same hkeeps =>
          cases hwritten : h.system.writtenBy action with
          | none => exact hold
          | some write =>
              obtain ⟨other, op⟩ := write
              -- a write of another transaction is none of this one's effects
              have hother : ¬ (other = txn'.id ∧ op.key = key) := by
                rintro ⟨rfl, -⟩
                exact hkeeps op hwritten
              simp only [if_neg hother]
              exact hold
      | reads haction =>
          rw [haction]
          unfold Transaction.recordRead
          split <;> exact hold
      | @stores op hwritten =>
          rw [hwritten]
          simp only [true_and]
          rw [WriteSet.get_apply, hold]
          simp only [eq_comm]
      -- preparing, committing and aborting leave the write set alone
      | prepares haction =>
          rw [haction]
          exact hold
      | commits haction =>
          rw [haction]
          exact hold
      | aborts haction =>
          rw [haction]
          exact hold

theorem Recorded.step (hrecorded : h.Recorded) (action : TxnStep) :
    (h.step hashKey action).Recorded where
  locked := hrecorded.locked.step hashKey action
  unprepared := hrecorded.unprepared.step hashKey hrecorded.locked action
  known := by
    intro write hwrite
    apply TxnSystem.known_step hrecorded.locked
    rcases List.mem_append.mp hwrite with hold | hnew
    · exact hrecorded.known write hold
    · obtain ⟨txn, hunlocked, -⟩ :=
        TxnSystem.of_writtenBy hashKey (Option.mem_toList.mp hnew)
      exact ⟨txn, TxnSystem.lookup_of_unlocked hunlocked⟩
  writeSet := fun _ _ hlookup' key => hrecorded.writeSet_step hlookup' key

theorem Recorded.readsOwnWrites (hrecorded : h.Recorded) : h.ReadsOwnWrites hashKey := by
  intro txnId txn key effect hlookup heffect
  have hlocal := (hrecorded.writeSet txnId txn hlookup key).trans heffect
  rw [MvccEngine.get, hlocal]

theorem Recorded.commitsLastEffects (hrecorded : h.Recorded) : h.CommitsLastEffects := by
  intro txnId txn order faults physical engine hlookup hok m
  have hwritable : ¬ txn.isolation.isReadOnly = true := by
    intro hreadOnly
    have hfails := hrecorded.unprepared.commit_readOnly hlookup hreadOnly order faults physical
    rw [hok] at hfails
    contradiction
  refine ⟨_, MvccEngine.overwrites_commit hwritable hok m, fun key => ?_⟩
  rw [← hrecorded.writeSet txnId txn hlookup key]
  exact foldl_overwrite (fun op => IterOrder.mem_operations_iff) m key

end

/-- In every run a transaction reads its own writes, and a commit that returns `Ok` makes them. -/
theorem readYourWrites_run (hashKey : Bytes → UInt64) (storage : Lsm) (config : LockConfig)
    (steps : List TxnStep) :
    (Run.run (step hashKey) (init storage config) steps).ReadsOwnWrites hashKey ∧
      (Run.run (step hashKey) (init storage config) steps).CommitsLastEffects := by
  have hrecorded : (Run.run (step hashKey) (init storage config) steps).Recorded :=
    Run.invariant Recorded (fun _ action h => h.step action) (recorded_init storage config) steps
  exact ⟨hrecorded.readsOwnWrites, hrecorded.commitsLastEffects⟩

end WriteHistory
end Crabstash

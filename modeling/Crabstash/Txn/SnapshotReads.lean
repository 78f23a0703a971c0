import Crabstash.Storage.SnapshotStability
import Crabstash.Txn.Observed

/-!
# What a transaction reads

A transaction is meant to read the values that the commits returned by its begin have
produced, whatever is committed later.  It reads the storage at its start timestamp.
That timestamp comes from the oracle of the engine, and the versions in the storage
carry timestamps of the counter of the storage, which is another clock: a start
timestamp has the milliseconds since 1970 in its upper bits, the counter starts at one.
So whatever is written later is older than every start timestamp and is read as soon as
it is in the memtable, one write of a commit after the other.

`KeepsSnapshot` is the condition on single steps, for one transaction and one key,
under which the two clocks do no harm, and `txn_get_run` says that the transaction then
reads its snapshot of the key.  Up to the begin, the value in the storage follows the
order of the writes; at the begin, the last write is by a commit that has returned;
after it, what is written is newer than the start or hidden behind something that is
not, and a flush does not take a version along that must not be seen.
-/

namespace Crabstash

open Run

/-! ## Several writes -/

namespace Lsm

theorem immutableMemtables_writeAll (s : Lsm) (entries : List LogEntry) :
    (s.writeAll entries).immutableMemtables = s.immutableMemtables := by
  induction entries generalizing s with
  | nil => rfl
  | cons e rest ih => exact ih (s.write e.op.key e.op.effect e.ts)

/-- Writes in the order of their timestamps, none of which is below a version of the key
in the memtable: the last one is the newest. -/
theorem newest_writeAll {s : Lsm} {key : Bytes} {entries : List LogEntry}
    (hsorted : entries.Pairwise fun e e' => e.ts ≤ e'.ts)
    (hnewer : ∀ e ∈ entries, e.op.key = key → ∀ v ∈ s.memtable.iter, v.1.data = key →
      v.1.timestamp ≤ e.ts) :
    (s.writeAll entries).newest key = valuesAfter s.newest entries key := by
  induction entries generalizing s with
  | nil => rfl
  | cons e rest ih =>
      have hrest := List.pairwise_cons.mp hsorted
      have hwrite : (s.write e.op.key e.op.effect e.ts).newest key =
          overwrite s.newest e.op key := by
        unfold overwrite
        by_cases hkey : e.op.key = key
        · rw [← hkey, Function.update_self]
          apply newest_write_self
          rw [hkey]
          exact hnewer e (List.mem_cons_self ..) hkey
        · rw [Function.update_of_ne (Ne.symm hkey), newest_write_of_ne s hkey]
      have hlater : ∀ e' ∈ rest, e'.op.key = key →
          ∀ v ∈ (s.write e.op.key e.op.effect e.ts).memtable.iter, v.1.data = key →
            v.1.timestamp ≤ e'.ts := by
        intro e' he' hkey v hv hdata
        rcases MemTable.mem_iter_record.mp hv with rfl | ⟨hv, _⟩
        · exact hrest.1 e' he'
        · exact hnewer e' (List.mem_cons_of_mem _ he') hkey v hv hdata
      calc (s.writeAll (e :: rest)).newest key
          = valuesAfter (s.write e.op.key e.op.effect e.ts).newest rest key := ih hrest.2 hlater
        _ = valuesAfter (overwrite s.newest e.op) rest key := valuesAfter_congr hwrite rest

/-- Writes that a read at `ts` does not see: they are newer, or older than a version of
their key that it sees. -/
theorem getAtTs_writeAll {s : Lsm} (himm : s.immutableMemtables = []) {key : Bytes} {ts : ℕ}
    {entries : List LogEntry}
    (hhidden : ∀ e ∈ entries, e.op.key = key → ts < e.ts ∨
      ∃ v ∈ s.memtable.iter, v.1.data = key ∧ e.ts < v.1.timestamp ∧ v.1.timestamp ≤ ts) :
    (s.writeAll entries).getAtTs key ts = s.getAtTs key ts := by
  induction entries generalizing s with
  | nil => rfl
  | cons e rest ih =>
      have hwrite : (s.write e.op.key e.op.effect e.ts).getAtTs key ts = s.getAtTs key ts := by
        -- the write is too new for the read, hidden by a newer version, or of another key
        by_cases hkey : e.op.key = key
        · rcases hhidden e (List.mem_cons_self ..) hkey with hnewer | holder
          · exact getAtTs_write himm (fun _ => hnewer) e.op.effect
          · have himm' : (s.write e.op.key e.op.effect e.ts).immutableMemtables = [] := himm
            rw [getAtTs_eq himm', getAtTs_eq himm]
            subst hkey
            have hmemtable : (s.write e.op.key e.op.effect e.ts).memtable.getAtTs e.op.key ts =
                s.memtable.getAtTs e.op.key ts := MemTable.getAtTs_record_of_older _ holder
            rw [hmemtable]
            rfl
        · exact getAtTs_write himm (fun heq => absurd heq hkey) e.op.effect
      have hrest : ∀ e' ∈ rest, e'.op.key = key → ts < e'.ts ∨
          ∃ v ∈ (s.write e.op.key e.op.effect e.ts).memtable.iter, v.1.data = key ∧
            e'.ts < v.1.timestamp ∧ v.1.timestamp ≤ ts := by
        intro e' he' hkey
        rcases hhidden e' (List.mem_cons_of_mem _ he') hkey with hnewer | ⟨v, hv, hdata, hlt, hle⟩
        · exact Or.inl hnewer
        · -- the version that hides the write is still there, maybe with another value
          right
          by_cases hsame : v.1 = ⟨e.op.key, e.ts⟩
          · refine ⟨(v.1, e.op.effect), ?_, hdata, hlt, hle⟩
            exact MemTable.mem_iter_record.mpr (Or.inl (by rw [hsame]))
          · exact ⟨v, MemTable.mem_iter_record.mpr (Or.inr ⟨hv, hsame⟩), hdata, hlt, hle⟩
      have himm' : (s.write e.op.key e.op.effect e.ts).immutableMemtables = [] := himm
      exact (ih himm' hrest).trans hwrite

end Lsm

/-! ## The storage under a step -/

namespace MvccSystem

theorem immutableMemtables_logged (s : MvccSystem) (action : EngineStep) :
    (s.logged action).immutableMemtables = s.engine.storage.immutableMemtables := by
  by_cases hsync : action = .sync
  · rw [hsync]
    rfl
  · rw [logged_of_ne hsync, Lsm.immutableMemtables_writeAll]
    rfl

theorem immutableMemtables_step (hashKey : Bytes → UInt64) (s : MvccSystem) (action : EngineStep) :
    (s.step hashKey action).engine.storage.immutableMemtables =
      s.engine.storage.immutableMemtables := by
  rw [storage_step]
  split
  · exact immutableMemtables_logged s action
  · exact immutableMemtables_logged s action

private theorem zipIdx_sorted (writer : Writer) (operations : List BatchOperation) (ts : ℕ) :
    ((operations.zipIdx ts).map fun (op, ts) => (⟨writer, op, ts⟩ : LogEntry)).Pairwise
      fun e e' => e.ts ≤ e'.ts := by
  induction operations generalizing ts with
  | nil => exact List.Pairwise.nil
  | cons op rest ih =>
      rw [List.zipIdx_cons, List.map_cons, List.pairwise_cons]
      refine ⟨?_, ih (ts + 1)⟩
      intro e he
      obtain ⟨⟨op', ts'⟩, hmem, rfl⟩ := List.mem_map.mp he
      have := (List.mem_zipIdx hmem).1
      show ts ≤ ts'
      omega

theorem landedBy_sorted (s : MvccSystem) (action : EngineStep) :
    (s.landedBy action).Pairwise fun e e' => e.ts ≤ e'.ts := by
  unfold landedBy
  split
  · split
    · exact List.pairwise_singleton _ _
    · exact List.Pairwise.nil
  · split
    · exact zipIdx_sorted _ _ _
    · exact List.Pairwise.nil
  · exact List.Pairwise.nil

/-- Before the transaction has begun: a write of the key is not older than a version of it
in the memtable, and a flush is safe for the key. -/
structure WritesInOrder (key : Bytes) (s : MvccSystem) (action : EngineStep) : Prop where
  newer : ∀ e ∈ s.landedBy action, e.op.key = key →
    ∀ v ∈ s.engine.storage.memtable.iter, v.1.data = key → v.1.timestamp ≤ e.ts
  flush : s.Rotates action → (s.logged action).FlushSafe key

/-- After the transaction has begun: a write of the key is newer than the start, or older
than a version that the transaction sees, and a flush is safe for the key and takes no
version along that is newer than the start. -/
structure LeavesRead (key : Bytes) (startTs : ℕ) (s : MvccSystem) (action : EngineStep) :
    Prop where
  hidden : ∀ e ∈ s.landedBy action, e.op.key = key → startTs < e.ts ∨
    ∃ v ∈ s.engine.storage.memtable.iter, v.1.data = key ∧ e.ts < v.1.timestamp ∧
      v.1.timestamp ≤ startTs
  flush : s.Rotates action → (s.logged action).FlushSafe key ∧
    ∀ v ∈ (s.logged action).memtable.iter, v.1.data = key → v.1.timestamp ≤ startTs

instance (key : Bytes) (s : MvccSystem) (action : EngineStep) :
    Decidable (WritesInOrder key s action) :=
  decidable_of_iff ((∀ e ∈ s.landedBy action, e.op.key = key →
      ∀ v ∈ s.engine.storage.memtable.iter, v.1.data = key → v.1.timestamp ≤ e.ts) ∧
    (s.Rotates action → (s.logged action).FlushSafe key))
    ⟨fun h => ⟨h.1, h.2⟩, fun h => ⟨h.1, h.2⟩⟩

instance (key : Bytes) (startTs : ℕ) (s : MvccSystem) (action : EngineStep) :
    Decidable (LeavesRead key startTs s action) :=
  decidable_of_iff ((∀ e ∈ s.landedBy action, e.op.key = key → startTs < e.ts ∨
      ∃ v ∈ s.engine.storage.memtable.iter, v.1.data = key ∧ e.ts < v.1.timestamp ∧
        v.1.timestamp ≤ startTs) ∧
    (s.Rotates action → (s.logged action).FlushSafe key ∧
      ∀ v ∈ (s.logged action).memtable.iter, v.1.data = key → v.1.timestamp ≤ startTs))
    ⟨fun h => ⟨h.1, h.2⟩, fun h => ⟨h.1, h.2⟩⟩

theorem WritesInOrder.newest_step {s : MvccSystem} {key : Bytes} {action : EngineStep}
    (h : WritesInOrder key s action) (himm : s.engine.storage.immutableMemtables = [])
    (hashKey : Bytes → UInt64) : (s.step hashKey action).engine.storage.newest key =
      valuesAfter s.engine.storage.newest (s.landedBy action) key := by
  have hlogged : (s.logged action).newest key =
      valuesAfter s.engine.storage.newest (s.landedBy action) key := by
    by_cases hsync : action = .sync
    · rw [hsync]
      rfl
    · rw [logged_of_ne hsync]
      exact Lsm.newest_writeAll (landedBy_sorted s action) h.newer
  rw [storage_step]
  split
  · next hrotates =>
      rw [Lsm.newest_rotate ((immutableMemtables_logged s action).trans himm) (h.flush hrotates),
        hlogged]
  · exact hlogged

theorem LeavesRead.getAtTs_step {s : MvccSystem} {key : Bytes} {startTs : ℕ} {action : EngineStep}
    (h : LeavesRead key startTs s action) (himm : s.engine.storage.immutableMemtables = [])
    (hashKey : Bytes → UInt64) : (s.step hashKey action).engine.storage.getAtTs key startTs =
      s.engine.storage.getAtTs key startTs := by
  have hlogged : (s.logged action).getAtTs key startTs = s.engine.storage.getAtTs key startTs := by
    by_cases hsync : action = .sync
    · rw [hsync]
      rfl
    · rw [logged_of_ne hsync]
      have himm' : (s.engine.storage.advance (s.drawnBy action)).immutableMemtables = [] := himm
      exact Lsm.getAtTs_writeAll himm' h.hidden
  rw [storage_step]
  split
  · next hrotates =>
      obtain ⟨hsafe, hold⟩ := h.flush hrotates
      rw [Lsm.getAtTs_rotate ((immutableMemtables_logged s action).trans himm) hsafe hold, hlogged]
  · exact hlogged

end MvccSystem

/-! ## Runs -/

namespace Observed

variable {hashKey : Bytes → UInt64} {txnId : ℕ} {key : Bytes}

/-- The last write of a key. -/
def lastWriteOf (o : Observed) (key : Bytes) : Option LogEntry :=
  (o.log.filter fun e => decide (e.op.key = key)).getLast?

/-- When the transaction begins: the last write of the key is by a call that has returned,
and the start is not below a version of the key in the memtable. -/
structure BeginsAfter (o : Observed) (key : Bytes) (startTs : ℕ) : Prop where
  returned : ∀ e ∈ o.lastWriteOf key, o.hasReturned e = true
  above : ∀ v ∈ o.system.engine.storage.memtable.iter, v.1.data = key → v.1.timestamp ≤ startTs

/-- The step does no harm to what the transaction reads of the key. -/
structure KeepsSnapshot (txnId : ℕ) (key : Bytes) (o : Observed) (action : EngineStep) : Prop where
  before : (o.system.engine.txns.lookup txnId).isNone = true →
    MvccSystem.WritesInOrder key o.system action
  begins : o.system.begunBy action = some txnId →
    ∀ start ∈ o.system.starting.lookup txnId, o.BeginsAfter key start.2
  after : ∀ txn ∈ o.system.engine.txns.lookup txnId,
    MvccSystem.LeavesRead key txn.startTs o.system action

instance (o : Observed) (key : Bytes) (startTs : ℕ) : Decidable (o.BeginsAfter key startTs) :=
  decidable_of_iff ((∀ e ∈ o.lastWriteOf key, o.hasReturned e = true) ∧
    ∀ v ∈ o.system.engine.storage.memtable.iter, v.1.data = key → v.1.timestamp ≤ startTs)
    ⟨fun h => ⟨h.1, h.2⟩, fun h => ⟨h.1, h.2⟩⟩

instance (txnId : ℕ) (key : Bytes) (o : Observed) (action : EngineStep) :
    Decidable (KeepsSnapshot txnId key o action) :=
  decidable_of_iff (((o.system.engine.txns.lookup txnId).isNone = true →
      MvccSystem.WritesInOrder key o.system action) ∧
    (o.system.begunBy action = some txnId →
      ∀ start ∈ o.system.starting.lookup txnId, o.BeginsAfter key start.2) ∧
    ∀ txn ∈ o.system.engine.txns.lookup txnId,
      MvccSystem.LeavesRead key txn.startTs o.system action)
    ⟨fun h => ⟨h.1, h.2.1, h.2.2⟩, fun h => ⟨h.1, h.2, h.3⟩⟩

/-- A transaction that has not begun finds the last write of the key in the storage, and
one that has reads the value it found when it began. -/
structure ReadsSnapshot (txnId : ℕ) (key : Bytes) (o : Observed) : Prop where
  numbered : o.system.Numbered
  immutableMemtables : o.system.engine.storage.immutableMemtables = []
  before : o.system.engine.txns.lookup txnId = none →
    o.system.engine.storage.newest key = valuesAfter o.base o.log key
  after : ∀ txn, o.system.engine.txns.lookup txnId = some txn →
    (o.snapshots.lookup txnId).map (fun values => values key) =
      some (o.system.engine.storage.getAtTs key txn.startTs)

theorem readsSnapshot_init {storage : Lsm} (himm : storage.immutableMemtables = []) (txnId : ℕ)
    (key : Bytes) : ReadsSnapshot txnId key (init storage) where
  numbered := MvccSystem.numbered_init storage
  immutableMemtables := himm
  before := fun _ => rfl
  after := by
    intro txn hlookup
    contradiction

/-- If the last write of a key has returned, the key has its committed value. -/
theorem committedValues_eq {o : Observed}
    (hreturned : ∀ e ∈ o.lastWriteOf key, o.hasReturned e = true) :
    o.committedValues key = valuesAfter o.base o.log key := by
  unfold lastWriteOf at hreturned
  have hlast : ((o.log.filter o.hasReturned).filter fun e => decide (e.op.key = key)).getLast? =
      (o.log.filter fun e => decide (e.op.key = key)).getLast? := by
    rw [List.filter_comm]
    generalize (o.log.filter fun e : LogEntry => decide (e.op.key = key)) = writes at hreturned ⊢
    rcases List.eq_nil_or_concat writes with hnil | ⟨earlier, last, hconcat⟩
    · rw [hnil]
      rfl
    · rw [hconcat] at hreturned ⊢
      rw [List.concat_eq_append, List.filter_append]
      have hkept : o.hasReturned last = true := by
        apply hreturned
        simp
      simp [hkept]
  unfold committedValues
  rw [valuesAfter_apply, valuesAfter_apply, hlast]

theorem begunBy_eq_some {s : MvccSystem} {action : EngineStep} {txnId : ℕ}
    (h : s.begunBy action = some txnId) :
    action = .begin txnId ∧ ∃ start, s.starting.lookup txnId = some start := by
  unfold MvccSystem.begunBy at h
  split at h
  · next txnId' =>
      obtain ⟨start, hstart, rfl⟩ := Option.map_eq_some_iff.mp h
      exact ⟨rfl, start, hstart⟩
  · contradiction

/-- The snapshot of a transaction that has begun stays what it is. -/
theorem lookup_snapshots_step {o : Observed} (hnumbered : o.system.Numbered)
    {txn : Transaction} (hlookup : o.system.engine.txns.lookup txnId = some txn)
    (action : EngineStep) :
    (o.step hashKey action).snapshots.lookup txnId = o.snapshots.lookup txnId := by
  unfold step
  cases hbegun : o.system.begunBy action with
  | none => rfl
  | some txnId' =>
      obtain ⟨_, start, hstart⟩ := begunBy_eq_some hbegun
      have hne : txnId ≠ txnId' := by
        rintro rfl
        rw [hnumbered.starting txnId _ hstart] at hlookup
        contradiction
      exact AList.lookup_insert_ne hne

theorem ReadsSnapshot.step {o : Observed} {action : EngineStep}
    (h : ReadsSnapshot txnId key o) (hkeeps : KeepsSnapshot txnId key o action) :
    ReadsSnapshot txnId key (o.step hashKey action) where
  numbered := h.numbered.step hashKey action
  immutableMemtables :=
    (MvccSystem.immutableMemtables_step hashKey o.system action).trans h.immutableMemtables
  before := by
    intro hnone
    have hnone' : o.system.engine.txns.lookup txnId = none := by
      by_contra hsome
      obtain ⟨txn, htxn⟩ := Option.ne_none_iff_exists'.mp hsome
      obtain ⟨txn', htxn', _⟩ := h.numbered.lookup_step hashKey action htxn
      have hnone : (o.system.step hashKey action).engine.txns.lookup txnId = none := hnone
      rw [htxn'] at hnone
      contradiction
    have horder := hkeeps.before (by rw [hnone']; rfl)
    calc (o.system.step hashKey action).engine.storage.newest key
        = valuesAfter o.system.engine.storage.newest (o.system.landedBy action) key :=
          horder.newest_step h.immutableMemtables hashKey
      _ = valuesAfter (valuesAfter o.base o.log) (o.system.landedBy action) key :=
          valuesAfter_congr (h.before hnone') _
      _ = valuesAfter o.base (o.log ++ o.system.landedBy action) key := by
          rw [valuesAfter_append]
  after := by
    intro txn' hlookup'
    have hlookup' : (o.system.step hashKey action).engine.txns.lookup txnId = some txn' := hlookup'
    cases hlookup : o.system.engine.txns.lookup txnId with
    | some txn =>
        obtain ⟨txn'', htxn'', hstart⟩ := h.numbered.lookup_step hashKey action hlookup
        rw [hlookup'] at htxn''
        rw [lookup_snapshots_step h.numbered hlookup, h.after txn hlookup,
          Option.some.inj htxn'', hstart]
        have hread := (hkeeps.after txn hlookup).getAtTs_step h.immutableMemtables hashKey
        exact congrArg some hread.symm
    | none =>
        -- the transaction begins in this step, which leaves the storage alone
        obtain ⟨rfl, isolation, startTs, hstart, rfl⟩ :=
          h.numbered.begin_of_lookup_step hlookup hlookup'
        have hbegun : o.system.begunBy (.begin txnId) = some txnId := by
          rw [MvccSystem.begunBy, hstart]
          rfl
        have hafter := hkeeps.begins hbegun _ hstart
        have hsnapshots : (o.step hashKey (.begin txnId)).snapshots =
            o.snapshots.insert txnId o.committedValues := by
          unfold Observed.step
          rw [hbegun]
        have hstorage : (o.step hashKey (.begin txnId)).system.engine.storage =
            o.system.engine.storage := by
          show (o.system.step hashKey (.begin txnId)).engine.storage = _
          rw [MvccSystem.step, hstart]
          rfl
        rw [hsnapshots, hstorage, AList.lookup_insert]
        show some (o.committedValues key) = some (o.system.engine.storage.getAtTs key startTs)
        rw [committedValues_eq hafter.returned,
          Lsm.getAtTs_eq_newest h.immutableMemtables hafter.above, h.before hlookup]

/-- On an engine over any storage with nothing left to flush, in a run whose steps do no harm: what
the transaction reads of the key, unless it has written it, is the value that the commits
returned by its begin have produced. -/
theorem txn_get_run {storage : Lsm} (himm : storage.immutableMemtables = []) (hashKey : Bytes → UInt64)
    (txnId : ℕ) (key : Bytes) (actions : List EngineStep)
    (hkeeps : Along (step hashKey) (KeepsSnapshot txnId key) (init storage) actions)
    (txn : Transaction)
    (htxn : (run (step hashKey) (init storage) actions).system.engine.txns.lookup txnId = some txn)
    (hunwritten : txn.writeSet.get key = none) :
    some ((run (step hashKey) (init storage) actions).system.engine.get hashKey txn key).1 =
      ((run (step hashKey) (init storage) actions).snapshots.lookup txnId).map
        fun values => values key := by
  have hreads : ReadsSnapshot txnId key (run (step hashKey) (init storage) actions) :=
    hkeeps.invariant (ReadsSnapshot txnId key) (fun _ _ h hstep => h.step hstep)
      (readsSnapshot_init himm txnId key)
  rw [hreads.after txn htxn, MvccEngine.get, hunwritten]

/-- A transaction of its own that puts a key and is committed. -/
def putAndCommit (txnId : ℕ) (key value : Bytes) : List EngineStep :=
  [.drawStartTs .snapshot txnId false, .begin txnId, .put txnId key value (.ok ()),
    .startCommit txnId txnId] ++ List.replicate 5 (.continueCommit txnId .inserted)

/-- Between two transactions that put keys of their own. -/
def putsAround : List EngineStep :=
  putAndCommit 1 [7] [1] ++ [.drawStartTs .snapshot 2 false, .begin 2] ++ putAndCommit 3 [8] [2]

/-- The run with writes around the begin. -/
def observedAround : Observed :=
  run (step fun _ => 0) (init (Lsm.openDir 100 Dir.empty)) putsAround

/-- The transaction that has begun in it. -/
def txnAround : Transaction := (observedAround.system.engine.txns.lookup 2).get (by decide +kernel)

theorem txn_get_run_around :
    some (observedAround.system.engine.get (fun _ => 0) txnAround [7]).1 =
      (observedAround.snapshots.lookup 2).map fun values => values [7] :=
  txn_get_run rfl _ 2 [7] putsAround (by decide +kernel) txnAround (Option.some_get _).symm
    (by decide +kernel)

/-- A key put and committed after the begin. -/
def putAfter : List EngineStep :=
  [.drawStartTs .snapshot 1 false, .begin 1] ++ putAndCommit 2 [7] [1]

/-- The run with a write behind the begin. -/
def observedAfter : Observed :=
  run (step fun _ => 0) (init (Lsm.openDir 100 Dir.empty)) putAfter

/-- The transaction that has begun before the write. -/
def txnBefore : Transaction := (observedAfter.system.engine.txns.lookup 1).get (by decide +kernel)

/-- What is committed after the begin is read. -/
theorem not_txn_get_run :
    ¬ ∀ (storage : Lsm) (hashKey : Bytes → UInt64) (txnId : ℕ) (key : Bytes)
      (actions : List EngineStep) (txn : Transaction), storage.Reachable →
      (run (step hashKey) (init storage) actions).system.engine.txns.lookup txnId = some txn →
      txn.isolation = .snapshot → txn.isActive = true → txn.writeSet.get key = none →
      some ((run (step hashKey) (init storage) actions).system.engine.get hashKey txn key).1 =
        ((run (step hashKey) (init storage) actions).snapshots.lookup txnId).map
          fun values => values key := by
  intro h
  have hread : some (observedAfter.system.engine.get (fun _ => 0) txnBefore [7]).1 =
      (observedAfter.snapshots.lookup 1).map fun values => values [7] :=
    h _ _ 1 [7] putAfter txnBefore ⟨100, [], rfl⟩ (Option.some_get _).symm (by decide +kernel)
      (by decide +kernel) (by decide +kernel)
  exact absurd hread (by decide +kernel)

end Observed
end Crabstash

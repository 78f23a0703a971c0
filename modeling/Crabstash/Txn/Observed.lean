import Crabstash.Txn.MvccSystem

/-!
# What an observer of a run writes down

`Observed` goes along with a system and records which write went into the storage when
and through which call, which commits have returned, and, when a transaction begins,
the values that the commits returned by then have produced.  The engine reads nothing
of it.

A transaction keeps its number and its start timestamp for good, and a number is given
to one transaction only (`Numbered`).
-/

namespace Crabstash

open Crabstash.Action

namespace MvccSystem

/-! ## Beginning and returning -/

/-- The transaction whose `begin_with_isolation` returns in this step. -/
def begunBy (s : MvccSystem) : EngineStep → Option ℕ
  | .begin txnId => (s.starting.lookup txnId).map fun _ => txnId
  | _ => none

/-- The transaction whose `commit` returns in this step, without an error. -/
def returnedBy (s : MvccSystem) : EngineStep → Option ℕ
  | .continueCommit txnId order =>
      match s.committing txnId with
      | none => none
      | some (txn, progress) =>
          match (exec (commitNext order txn progress) s.engine).1 with
          | .ok none => some txnId
          | _ => none
  | _ => none

/-! ## Numbers of transactions -/

/-- No transaction begins, and those there are keep their numbers and their starts. -/
structure Continues (s s' : MvccEngine) : Prop where
  nextTxnId : s'.nextTxnId = s.nextTxnId
  txns : s'.txns = s.txns ∨ ∃ txnId txn txn', s.txns.lookup txnId = some txn ∧
    txn'.id = txn.id ∧ txn'.startTs = txn.startTs ∧ s'.txns = s.txns.insert txn.id txn'

theorem Continues.refl (s : MvccEngine) : Continues s s := ⟨rfl, Or.inl rfl⟩

theorem continues_of_touches {s s' : MvccEngine} {txnId : ℕ} {txn : Transaction}
    (hlookup : s.txns.lookup txnId = some txn) (htouches : s.Touches txn s') : Continues s s' := by
  refine ⟨htouches.nextTxnId, ?_⟩
  rcases htouches.txns with hsame | ⟨txn', hid, hstart, htxns⟩
  · exact Or.inl hsame
  · exact Or.inr ⟨txnId, txn, txn', hlookup, hid, hstart, htxns⟩

theorem continues_step (hashKey : Bytes → UInt64) (s : MvccSystem) {action : EngineStep}
    (hnot : ¬ Begins action) : Continues s.engine (s.step hashKey action).engine ∧
      (s.step hashKey action).starting = s.starting := by
  cases step_effect hashKey s action with
  | begins hbegins hquiet hstorage => exact absurd hbegins hnot
  | idle _ hquiet hsame =>
      rw [hsame]
      exact ⟨Continues.refl _, rfl⟩
  | touches _ hquiet hstarting hlookup htouches =>
      exact ⟨continues_of_touches hlookup htouches, hstarting⟩
  | stores _ hstarting hengine =>
      rw [hengine]
      exact ⟨⟨rfl, Or.inl rfl⟩, hstarting⟩

/-- Transactions are kept under their numbers, and a number is given out once. -/
structure Numbered (s : MvccSystem) : Prop where
  named : ∀ txnId txn, s.engine.txns.lookup txnId = some txn → txn.id = txnId
  drawn : ∀ txnId, s.engine.nextTxnId ≤ txnId →
    s.engine.txns.lookup txnId = none ∧ s.starting.lookup txnId = none
  starting : ∀ txnId start, s.starting.lookup txnId = some start →
    s.engine.txns.lookup txnId = none

theorem numbered_init (storage : Lsm) : (init storage).Numbered where
  named := by
    intro txnId txn hlookup
    contradiction
  drawn := fun _ _ => ⟨rfl, rfl⟩
  starting := fun _ _ _ => rfl

/-- A transaction that goes on is found again, with its start. -/
theorem Continues.lookup {s : MvccSystem} {engine : MvccEngine} (h : Continues s.engine engine)
    (hnumbered : s.Numbered) (txnId : ℕ) :
    (engine.txns.lookup txnId).map Transaction.startTs =
      (s.engine.txns.lookup txnId).map Transaction.startTs := by
  rcases h.txns with hsame | ⟨txnId', txn, txn', hlookup, _, hstart, htxns⟩
  · rw [hsame]
  · have hname := hnumbered.named txnId' txn hlookup
    rw [htxns]
    by_cases heq : txnId = txn.id
    · rw [heq, AList.lookup_insert, hname, hlookup]
      exact congrArg some hstart
    · rw [AList.lookup_insert_ne heq]

theorem Continues.lookup_eq_none {s : MvccSystem} {engine : MvccEngine}
    (h : Continues s.engine engine) (hnumbered : s.Numbered) (txnId : ℕ) :
    engine.txns.lookup txnId = none ↔ s.engine.txns.lookup txnId = none := by
  have hlookup := congrArg Option.isNone (h.lookup hnumbered txnId)
  rw [Option.isNone_map, Option.isNone_map] at hlookup
  rw [← Option.isNone_iff_eq_none, hlookup, Option.isNone_iff_eq_none]

theorem Numbered.drawStartTs {s : MvccSystem} (h : s.Numbered) (hashKey : Bytes → UInt64)
    (isolation : IsolationLevel) (physical : ℕ) (timedOut : Bool) :
    (s.step hashKey (.drawStartTs isolation physical timedOut)).Numbered where
  named := h.named
  drawn := by
    intro txnId hle
    have hle : s.engine.nextTxnId + 1 ≤ txnId := hle
    have hold := h.drawn txnId (by omega)
    refine ⟨hold.1, ?_⟩
    show AList.lookup txnId (s.starting.insert s.engine.nextTxnId _) = none
    rw [AList.lookup_insert_ne (by omega)]
    exact hold.2
  starting := by
    intro txnId start hstart
    by_cases heq : txnId = s.engine.nextTxnId
    · exact (h.drawn txnId heq.ge).1
    · apply h.starting txnId start
      rw [← hstart]
      exact (AList.lookup_insert_ne heq).symm

theorem Numbered.begin {s : MvccSystem} (h : s.Numbered) (hashKey : Bytes → UInt64) (txnId : ℕ) :
    (s.step hashKey (.begin txnId)).Numbered := by
  rw [MvccSystem.step]
  split
  · exact h
  · next isolation startTs hstart =>
      have htxns : (s.engine.register isolation txnId startTs).txns =
          s.engine.txns.insert txnId (Transaction.new txnId startTs isolation) := rfl
      constructor
      · intro txnId' txn hlookup
        simp only [htxns] at hlookup
        by_cases heq : txnId' = txnId
        · rw [heq, AList.lookup_insert] at hlookup
          rw [heq, ← Option.some.inj hlookup]
          rfl
        · rw [AList.lookup_insert_ne heq] at hlookup
          exact h.named txnId' txn hlookup
      · intro txnId' hle
        have hold := h.drawn txnId' hle
        have hne : txnId' ≠ txnId := by
          rintro rfl
          rw [hold.2] at hstart
          contradiction
        simp only [htxns]
        rw [AList.lookup_insert_ne hne, AList.lookup_erase_ne hne]
        exact hold
      · intro txnId' start hstart'
        obtain ⟨hne, hstart'⟩ := lookup_erase_eq_some_iff.mp hstart'
        simp only [htxns]
        rw [AList.lookup_insert_ne hne]
        exact h.starting txnId' start hstart'

theorem Numbered.step {s : MvccSystem} (h : s.Numbered) (hashKey : Bytes → UInt64)
    (action : EngineStep) : (s.step hashKey action).Numbered := by
  by_cases hbegins : Begins action
  · cases action with
    | drawStartTs isolation physical timedOut =>
        exact h.drawStartTs hashKey isolation physical timedOut
    | begin txnId => exact h.begin hashKey txnId
    | _ => exact hbegins.elim
  · obtain ⟨hcontinues, hstarting⟩ := continues_step hashKey s hbegins
    constructor
    · intro txnId txn hlookup
      rcases hcontinues.txns with hsame | ⟨txnId', txn', txn'', hlookup', hid, _, htxns⟩
      · rw [hsame] at hlookup
        exact h.named txnId txn hlookup
      · rw [htxns] at hlookup
        by_cases heq : txnId = txn'.id
        · rw [heq, AList.lookup_insert] at hlookup
          rw [heq, ← Option.some.inj hlookup]
          exact hid
        · rw [AList.lookup_insert_ne heq] at hlookup
          exact h.named txnId txn hlookup
    · intro txnId hle
      rw [hcontinues.nextTxnId] at hle
      rw [hcontinues.lookup_eq_none h, hstarting]
      exact h.drawn txnId hle
    · intro txnId start hstart
      rw [hstarting] at hstart
      rw [hcontinues.lookup_eq_none h]
      exact h.starting txnId start hstart

/-- A transaction keeps its start. -/
theorem Numbered.lookup_step {s : MvccSystem} (h : s.Numbered) (hashKey : Bytes → UInt64)
    (action : EngineStep) {txnId : ℕ} {txn : Transaction}
    (hlookup : s.engine.txns.lookup txnId = some txn) :
    ∃ txn', (s.step hashKey action).engine.txns.lookup txnId = some txn' ∧
      txn'.startTs = txn.startTs := by
  by_cases hbegins : Begins action
  · cases action with
    | drawStartTs isolation physical timedOut => exact ⟨txn, hlookup, rfl⟩
    | begin txnId' =>
        rw [MvccSystem.step]
        split
        · exact ⟨txn, hlookup, rfl⟩
        · next isolation startTs hstart =>
            have hne : txnId ≠ txnId' := by
              rintro rfl
              rw [h.starting txnId _ hstart] at hlookup
              contradiction
            refine ⟨txn, ?_, rfl⟩
            rw [← hlookup]
            exact AList.lookup_insert_ne hne
    | _ => exact hbegins.elim
  · have hstarts := (continues_step hashKey s hbegins).1.lookup h txnId
    rw [hlookup] at hstarts
    exact Option.map_eq_some_iff.mp hstarts

/-- A transaction that is there after a step and was not before it has begun in it. -/
theorem Numbered.begin_of_lookup_step {s : MvccSystem} (h : s.Numbered)
    {hashKey : Bytes → UInt64} {action : EngineStep} {txnId : ℕ} {txn : Transaction}
    (hnone : s.engine.txns.lookup txnId = none)
    (hsome : (s.step hashKey action).engine.txns.lookup txnId = some txn) :
    action = .begin txnId ∧ ∃ isolation startTs,
      s.starting.lookup txnId = some (isolation, startTs) ∧
        txn = Transaction.new txnId startTs isolation := by
  by_cases hbegins : Begins action
  · cases action with
    | drawStartTs isolation physical timedOut =>
        have hsome : s.engine.txns.lookup txnId = some txn := hsome
        rw [hnone] at hsome
        contradiction
    | begin txnId' =>
        rw [MvccSystem.step] at hsome
        split at hsome
        · rw [hnone] at hsome
          contradiction
        · next isolation startTs hstart =>
            have hsome : (s.engine.txns.insert txnId'
              (Transaction.new txnId' startTs isolation)).lookup txnId = some txn := hsome
            by_cases heq : txnId = txnId'
            · subst heq
              rw [AList.lookup_insert] at hsome
              exact ⟨rfl, isolation, startTs, hstart, (Option.some.inj hsome).symm⟩
            · rw [AList.lookup_insert_ne heq, hnone] at hsome
              contradiction
    | _ => exact hbegins.elim
  · have hstays := ((continues_step hashKey s hbegins).1.lookup_eq_none h txnId).mpr hnone
    rw [hstays] at hsome
    contradiction

end MvccSystem

/-! ## The record -/

/-- `base` has the values of the storage at the start; the first `flushed` writes of the
log were in the storage when its memtable was last rotated. -/
structure Observed where
  system : MvccSystem
  base : Bytes → Option Bytes
  log : List LogEntry
  flushed : ℕ
  returned : List ℕ
  snapshots : HashMap ℕ (Bytes → Option Bytes)

/-- The values after the writes of a list. -/
def valuesAfter (base : Bytes → Option Bytes) (entries : List LogEntry) : Bytes → Option Bytes :=
  entries.foldl (fun values e => overwrite values e.op) base

namespace Observed

/-- No transaction has begun; what the storage holds is the base. -/
def init (storage : Lsm) : Observed :=
  { system := MvccSystem.init storage, base := storage.newest, log := [], flushed := 0
    returned := [], snapshots := ∅ }

/-- The call that made the write has returned; that of a batch returns when it is made. -/
def hasReturned (o : Observed) (e : LogEntry) : Bool :=
  match e.writer with
  | .txn txnId => txnId ∈ o.returned
  | .batch _ => true

/-- The values that the calls returned by now have produced. -/
def committedValues (o : Observed) : Bytes → Option Bytes :=
  valuesAfter o.base (o.log.filter o.hasReturned)

/-- The system after the step, with what has landed, been flushed, returned and begun. -/
def step (hashKey : Bytes → UInt64) (o : Observed) (action : EngineStep) : Observed :=
  let log := o.log ++ o.system.landedBy action
  { system := o.system.step hashKey action
    base := o.base
    log
    flushed := if o.system.Rotates action then log.length else o.flushed
    returned := (o.system.returnedBy action).toList ++ o.returned
    snapshots :=
      match o.system.begunBy action with
      | some txnId => o.snapshots.insert txnId o.committedValues
      | none => o.snapshots }

end Observed

/-- The value of a key is what its last write left. -/
theorem valuesAfter_apply (base : Bytes → Option Bytes) (entries : List LogEntry) (key : Bytes) :
    valuesAfter base entries key =
      ((entries.filter fun e => decide (e.op.key = key)).getLast?.map fun e => e.op.effect).getD
        (base key) := by
  induction entries using List.reverseRecOn with
  | nil => rfl
  | append_singleton entries e ih =>
      have hlast : valuesAfter base (entries ++ [e]) = overwrite (valuesAfter base entries) e.op := by
        unfold valuesAfter
        rw [List.foldl_append]
        rfl
      rw [hlast, overwrite, List.filter_append]
      by_cases hkey : e.op.key = key
      · rw [hkey, Function.update_self]
        simp [hkey]
      · rw [Function.update_of_ne (Ne.symm hkey), ih]
        simp [hkey]

/-- Of the other keys nothing matters. -/
theorem valuesAfter_congr {base base' : Bytes → Option Bytes} {key : Bytes}
    (hbase : base key = base' key) (entries : List LogEntry) :
    valuesAfter base entries key = valuesAfter base' entries key := by
  rw [valuesAfter_apply, valuesAfter_apply, hbase]

theorem valuesAfter_append (base : Bytes → Option Bytes) (entries entries' : List LogEntry) :
    valuesAfter base (entries ++ entries') = valuesAfter (valuesAfter base entries) entries' :=
  List.foldl_append

end Crabstash

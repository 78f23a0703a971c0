import Crabstash.Foundations.Run
import Crabstash.Storage.MemTable

/-!
# What a memtable has after any writes

Any sequence of `MemTable::put` and `MemTable::delete`, with any keys and timestamps in any order.

The entries are then the versions that were written, each with the effect of its last write
(`mem_iter_run`): inserting a version that is there replaces it.  A read at a timestamp gives the
effect of the newest version up to it (`getAtTs_run`).
-/

namespace Crabstash

open Run

/-- A call of `MemTable::put` or `MemTable::delete`. -/
inductive MemOp where
  | put (key : Key) (value : Bytes)
  | delete (key : Key)
  deriving DecidableEq, Repr

namespace MemOp

/-- The version that the operation writes. -/
def key : MemOp → Key
  | put key _ => key
  | delete key => key

/-- What a version has from the call: a value, or a tombstone. -/
def effect : MemOp → Option Bytes
  | put _ value => some value
  | delete _ => none

end MemOp

namespace MemTable

/-- The memtable after the operation. -/
def apply (m : MemTable) : MemOp → MemTable
  | .put key value => m.put key value
  | .delete key => m.delete key

theorem apply_eq_record (m : MemTable) (op : MemOp) : m.apply op = m.record op.key op.effect := by
  cases op <;> rfl

/-- The effect of the last of the calls for a version. -/
def lastEffect (ops : List MemOp) (key : Key) : Option (Option Bytes) :=
  (ops.reverse.find? fun op => decide (op.key = key)).map MemOp.effect

theorem lastEffect_append_singleton (ops : List MemOp) (op : MemOp) (key : Key) :
    lastEffect (ops ++ [op]) key =
      if op.key = key then some op.effect else lastEffect ops key := by
  rw [lastEffect, List.reverse_append, List.reverse_singleton, List.singleton_append,
    List.find?_cons]
  by_cases hkey : op.key = key
  · rw [if_pos hkey, decide_eq_true hkey]
    rfl
  · rw [if_neg hkey, decide_eq_false hkey, lastEffect]

theorem isSome_lastEffect_iff {ops : List MemOp} {key : Key} :
    (∃ effect, lastEffect ops key = some effect) ↔ ∃ op ∈ ops, op.key = key := by
  simp [lastEffect, ← Option.isSome_iff_exists, List.find?_isSome]

/-- Every version that was written, with the effect of its last write. -/
theorem mem_iter_run (ops : List MemOp) (key : Key) (effect : Option Bytes) :
    (key, effect) ∈ (run apply new ops).iter ↔ lastEffect ops key = some effect := by
  induction ops using List.reverseRecOn with
  | nil => simp [lastEffect]
  | append_singleton ops op ih =>
      rw [run_append, run_cons, run_nil, apply_eq_record, mem_iter_record,
        lastEffect_append_singleton, ih]
      by_cases hkey : op.key = key
      · -- the version is replaced
        rw [if_pos hkey, Option.some.injEq, Prod.mk.injEq]
        constructor
        · rintro (⟨_, heffect⟩ | ⟨_, hne⟩)
          · exact heffect.symm
          · exact absurd hkey.symm hne
        · intro heffect
          exact Or.inl ⟨hkey.symm, heffect.symm⟩
      · rw [if_neg hkey, Prod.mk.injEq]
        constructor
        · rintro (⟨hsame, _⟩ | ⟨hlast, _⟩)
          · exact absurd hsame.symm hkey
          · exact hlast
        · intro hlast
          exact Or.inr ⟨hlast, fun hsame => hkey hsame.symm⟩

/-- The entries follow each other in the order of `Key::cmp`. -/
theorem pairwise_cmp_iter (m : MemTable) : m.iter.Pairwise fun a b => a.1.cmp b.1 = .lt :=
  m.map.sorted.imp fun hlt => Key.cmp_lt_iff.mpr hlt

/-- **A read at a timestamp gives the newest version up to it**, whatever was written in whatever
order, and nothing just when there is no such version. -/
theorem getAtTs_run (ops : List MemOp) (keyData : Bytes) (ts : ℕ) :
    ((run apply new ops).iter.Pairwise fun a b => a.1.cmp b.1 = .lt) ∧
    ((run apply new ops).getAtTs keyData ts = none ↔
      ∀ op ∈ ops, op.key.data = keyData → ts < op.key.timestamp) ∧
    ∀ effect, (run apply new ops).getAtTs keyData ts = some effect ↔
      ∃ version ≤ ts, lastEffect ops ⟨keyData, version⟩ = some effect ∧
        ∀ op ∈ ops, op.key.data = keyData → op.key.timestamp ≤ ts →
          op.key.timestamp ≤ version := by
  -- what is said of the entries is said of the versions that were written
  have hversions : ∀ P : Key → Prop, (∀ e ∈ (run apply new ops).iter, P e.1) ↔
      ∀ op ∈ ops, P op.key := by
    intro P
    constructor
    · intro h op hop
      obtain ⟨effect, hlast⟩ := isSome_lastEffect_iff.mpr ⟨op, hop, rfl⟩
      exact h _ ((mem_iter_run ops op.key effect).mpr hlast)
    · rintro h ⟨key, effect⟩ he
      obtain ⟨op, hop, rfl⟩ := isSome_lastEffect_iff.mp ⟨effect, (mem_iter_run ops key effect).mp he⟩
      exact h op hop
  refine ⟨pairwise_cmp_iter _, ?_, ?_⟩
  · rw [getAtTs_eq_none_iff]
    exact hversions fun key => key.data = keyData → ts < key.timestamp
  · intro effect
    rw [getAtTs_eq_some_iff]
    refine exists_congr fun version => and_congr_right fun _ => ?_
    rw [mem_iter_run]
    exact and_congr_right fun _ => hversions fun key => key.data = keyData → key.timestamp ≤ ts →
      key.timestamp ≤ version

-- a key that begins with another, versions on both sides of the timestamp, one of them replaced
example : (run apply new [.put ⟨[1], 5⟩ [15], .put ⟨[1, 0], 2⟩ [2], .delete ⟨[1], 3⟩,
    .put ⟨[1], 3⟩ [13]]).getAtTs [1] 4 = some (some [13]) := by decide

end MemTable
end Crabstash

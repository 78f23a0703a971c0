import Crabstash.Storage.Recency

/-!
# The size of the memtable

Every write adds its bytes to the accounted size of the memtable (`size_writes`), and a rotation
takes the memtable away (`memtable_rotateMemtable`).  `put` and a batch with operations compare
the size with `memtable_size` at their end and rotate, so that it is below when they return.

`delete` adds to the same size and makes no comparison; neither does an empty batch.  So the size
stays below `memtable_size` just as long as such a call finds room (`Fits`), which deletes alone
use up.
-/

namespace Crabstash

open Crabstash.Action Run

/-- What `MemTable::put` and `MemTable::delete` account for. -/
def BatchOperation.bytes (op : BatchOperation) : ℕ :=
  op.key.length + (op.effect.map List.length).getD 0

/-- What an operation adds to the size of the memtable. -/
def Op.bytes (op : Op) : ℕ := (op.operations.map BatchOperation.bytes).sum

namespace Lsm

theorem size_writes (s : Lsm) (ts : ℕ) (operations : List BatchOperation) :
    (s.writes ts operations).memtable.size =
      s.memtable.size + (operations.map BatchOperation.bytes).sum := by
  induction operations generalizing s ts with
  | nil => rfl
  | cons op rest ih =>
      have hwrite : (s.write op.key op.effect ts).memtable.size = s.memtable.size + op.bytes := rfl
      rw [writes, ih, hwrite, List.map_cons, List.sum_cons, Nat.add_assoc]

/-- A rotation takes the memtable away, also where it fails. -/
theorem memtable_rotateMemtable (faults : Faults IoCall) (s : Lsm) :
    (exec (rotateMemtable faults) s).2.memtable = MemTable.new := by
  by_cases hnone : ∀ call ∈ rotationCalls, faults call = false
  · rw [rotateMemtable_succeeds s hnone]
    exact memtable_rotate s
  · push Not at hnone
    exact (rotateMemtable_fails s (by simpa using hnone)).memtable

theorem memtableSize_rotateMemtable (faults : Faults IoCall) (s : Lsm) :
    (exec (rotateMemtable faults) s).2.memtableSize = s.memtableSize := by
  by_cases hnone : ∀ call ∈ rotationCalls, faults call = false
  · rw [rotateMemtable_succeeds s hnone]
    rfl
  · push Not at hnone
    exact (rotateMemtable_fails s (by simpa using hnone)).memtableSize

/-! ## Calls -/

/-- A call: it draws its timestamps and finishes. -/
theorem exec_act (op : Op) (faults : Faults IoCall) (s : Lsm) :
    exec (op.act faults) s =
      if op.operations = [] then (.ok (), s)
      else exec (op.finish faults s.nextTs) (s.advance op.operations.length) := by
  cases op with
  | put key value => rfl
  | delete key => rfl
  | writeBatch operations =>
      cases operations with
      | nil => rfl
      | cons op rest => rfl

/-- The state after a call of the public interface, with the calls to the file system that
fail in it. -/
def after (s : Lsm) (c : Op × Faults IoCall) : Lsm := (exec (c.1.act c.2) s).2

/-- The call returns `Ok`. -/
def ReturnsOk (s : Lsm) (c : Op × Faults IoCall) : Prop := (exec (c.1.act c.2) s).1 = .ok ()

/-- The size of the memtable is below the limit. -/
def SizeBelow (s : Lsm) : Prop := s.memtable.size < s.memtableSize

instance (s : Lsm) : Decidable s.SizeBelow := inferInstanceAs (Decidable (_ < _))

/-- If the call does not look at the size, there is room for what it adds. -/
def Fits (s : Lsm) (c : Op × Faults IoCall) : Prop :=
  c.1.checksSize = false → s.memtable.size + c.1.bytes < s.memtableSize

instance (s : Lsm) (c : Op × Faults IoCall) : Decidable (s.Fits c) :=
  inferInstanceAs (Decidable (_ → _))

section

variable {s : Lsm} {c : Op × Faults IoCall}

theorem memtableSize_after (s : Lsm) (c : Op × Faults IoCall) :
    (s.after c).memtableSize = s.memtableSize := by
  unfold after
  rw [exec_act]
  split
  · rfl
  · rw [Op.exec_finish]
    split
    · rfl
    · split
      · rw [memtableSize_rotateMemtable, writes_eq]
        rfl
      · rw [writes_eq]
        rfl

/-- After a call the size is below the limit just when the call has looked at it or has found
room. -/
theorem sizeBelow_after_iff (hsize : 0 < s.memtableSize) (hok : s.ReturnsOk c) :
    (s.after c).SizeBelow ↔ s.Fits c := by
  obtain ⟨op, faults⟩ := c
  unfold ReturnsOk at hok
  unfold SizeBelow
  rw [memtableSize_after]
  unfold after Fits Op.bytes
  simp only [exec_act] at hok ⊢
  by_cases hempty : op.operations = []
  · have hchecks : op.checksSize = false := by
      cases op with
      | writeBatch operations =>
          obtain rfl : operations = [] := hempty
          rfl
      | _ => contradiction
    rw [if_pos hempty, hempty]
    simp [hchecks]
  · rw [if_neg hempty, Op.exec_finish] at hok ⊢
    -- a batch that is not empty looks at the size, as `put` does
    have hchecks : op.checksSize = op.looksAtSize := by
      cases op with
      | writeBatch operations =>
          cases operations with
          | nil => exact absurd rfl hempty
          | cons op rest => rfl
      | _ => rfl
    have hlogged : ((s.advance op.operations.length).writes s.nextTs op.operations).memtable.size =
        s.memtable.size + (op.operations.map BatchOperation.bytes).sum :=
      size_writes _ _ _
    have hlimit : ((s.advance op.operations.length).writes s.nextTs
        op.operations).memtableSize = s.memtableSize := by
      rw [writes_eq]
      rfl
    split at hok
    · contradiction
    · next hlogs =>
        rw [if_neg hlogs, hchecks]
        -- a rotation leaves an empty memtable; otherwise the size is what was logged
        split
        · next hrotates =>
            rw [memtable_rotateMemtable]
            simp [hrotates.1, MemTable.new, hsize]
        · next hstays =>
            rw [hlogged]
            unfold full at hstays
            rw [hlimit, hlogged, not_and, not_le] at hstays
            cases hlooks : op.looksAtSize with
            | true => simp [hstays hlooks]
            | false => simp

/-- **The bound of the memtable.**  Over any sequence of calls that return `Ok` the size of the
memtable is below `memtable_size` after each of them if and only if all calls that do not look at
the size find room for what they add. -/
theorem sizeBelow_iff (hsize : 0 < s.memtableSize) {calls : List (Op × Faults IoCall)}
    (hok : Along after ReturnsOk s calls) :
    Along after (fun s c => (s.after c).SizeBelow) s calls ↔ Along after Fits s calls := by
  induction calls generalizing s with
  | nil => exact Iff.rfl
  | cons c rest ih =>
      have hsize' : 0 < (s.after c).memtableSize := by
        rw [memtableSize_after]
        exact hsize
      exact and_congr (sizeBelow_after_iff hsize hok.1) (ih hsize' hok.2)

end

/-- A put that rotates the memtable, and deletes that find room before and after it. -/
theorem sizeBelow_rotated :
    Along after (fun s c => (s.after c).SizeBelow) (openDir 3 Dir.empty)
      [(.delete [1], noFaults), (.put [2] [20], noFaults), (.delete [1], noFaults),
        (.writeBatch [.delete [3], .put [3] []], noFaults), (.delete [2], noFaults)] := by
  refine (sizeBelow_iff ?_ ?_).mpr ?_
  · decide
  · exact ⟨rfl, rfl, rfl, rfl, rfl, trivial⟩
  · decide

/-- Two deletes of one byte each in a database whose memtables may have two bytes. -/
theorem not_sizeBelow_deletes :
    Along after ReturnsOk (openDir 2 Dir.empty)
      [(.delete [1], noFaults), (.delete [2], noFaults)] ∧
    ¬ Along after (fun s c => (s.after c).SizeBelow) (openDir 2 Dir.empty)
      [(.delete [1], noFaults), (.delete [2], noFaults)] :=
  ⟨⟨rfl, rfl, trivial⟩, by decide⟩

end Lsm
end Crabstash

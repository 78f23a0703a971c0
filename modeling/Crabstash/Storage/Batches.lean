import Crabstash.Storage.Session

/-!
# Batches

`WriteBatch` of `batch.rs`, and what `write_batch` does compared with `put` and `delete` for the
same operations one after the other.

A batch reserves its timestamps in one step and gives them out by index, once for the records of
the log and once for the versions in the memtable.  The single calls draw them one at a time.
Only the place of the size check differs: a batch makes it at its end, `put` at every call and
`delete` never.  If a batch does not rotate the memtable then none of the single calls does, for
the memtable only grows (`size_le_writes`), and then the two leave the same state
(`writeBatch_eq_singles`).
-/

namespace Crabstash

open Crabstash.Action Run

/-- `WriteBatch`. -/
structure WriteBatch where
  operations : List BatchOperation
  approximateSize : ℕ
  deriving DecidableEq, Repr

namespace WriteBatch

/-- `WriteBatch::new`. -/
def new : WriteBatch := { operations := [], approximateSize := 0 }

/-- `put` of a batch. -/
def put (batch : WriteBatch) (key value : Bytes) : WriteBatch :=
  { operations := batch.operations ++ [.put key value]
    approximateSize := batch.approximateSize + (key.length + value.length) }

/-- `delete` of a batch. -/
def delete (batch : WriteBatch) (key : Bytes) : WriteBatch :=
  { operations := batch.operations ++ [.delete key]
    approximateSize := batch.approximateSize + key.length }

/-- `into_operations`. -/
def intoOperations (batch : WriteBatch) : List BatchOperation := batch.operations

/-- The call of `put` or `delete` for an operation. -/
def push (batch : WriteBatch) : BatchOperation → WriteBatch
  | .put key value => batch.put key value
  | .delete key => batch.delete key

/-- A batch has its operations in the order of the calls. -/
theorem intoOperations_foldl_push (batch : WriteBatch) (operations : List BatchOperation) :
    (operations.foldl push batch).intoOperations = batch.intoOperations ++ operations := by
  induction operations generalizing batch with
  | nil => simp
  | cons op rest ih =>
      have hpush : (batch.push op).intoOperations = batch.intoOperations ++ [op] := by
        cases op <;> rfl
      rw [List.foldl_cons, ih, hpush, List.append_assoc, List.singleton_append]

end WriteBatch

namespace BatchOperation

/-- The call of `Lsm::put` or `Lsm::delete` with what the operation has. -/
def single : BatchOperation → Op
  | put key value => .put key value
  | delete key => .delete key

theorem operations_single (op : BatchOperation) : op.single.operations = [op] := by
  cases op <;> rfl

end BatchOperation

namespace Lsm

theorem size_le_write (s : Lsm) (key : Bytes) (value : Option Bytes) (ts : ℕ) :
    s.memtable.size ≤ (s.write key value ts).memtable.size := Nat.le_add_right _ _

/-- Writing never makes the memtable smaller. -/
theorem size_le_writes (s : Lsm) (ts : ℕ) (operations : List BatchOperation) :
    s.memtable.size ≤ (s.writes ts operations).memtable.size := by
  induction operations generalizing s ts with
  | nil => exact le_rfl
  | cons op rest ih => exact (s.size_le_write op.key op.effect ts).trans (ih _ _)

@[simp] theorem memtableSize_writes (s : Lsm) (ts : ℕ) (operations : List BatchOperation) :
    (s.writes ts operations).memtableSize = s.memtableSize := by
  rw [writes_eq]

theorem not_full_of_writes {s : Lsm} {ts : ℕ} {operations : List BatchOperation}
    (hroom : ¬ (s.writes ts operations).full) : ¬ s.full := by
  intro hfull
  have hsize := s.size_le_writes ts operations
  have hlimit : (s.writes ts operations).memtableSize = s.memtableSize := memtableSize_writes ..
  unfold full at hroom hfull
  omega

theorem advance_write (s : Lsm) (key : Bytes) (value : Option Bytes) (ts count : ℕ) :
    (s.write key value ts).advance count = (s.advance count).write key value ts := rfl

theorem advance_advance (s : Lsm) (count count' : ℕ) :
    (s.advance count).advance count' = s.advance (count + count') := by
  simp [advance, Nat.add_assoc]

/-- The first operation of a batch, and the others with the timestamps after its own. -/
theorem writes_cons (s : Lsm) (op : BatchOperation) (rest : List BatchOperation) :
    (s.advance (op :: rest).length).writes s.nextTs (op :: rest) =
      ((s.logged op.single).advance rest.length).writes (s.logged op.single).nextTs rest := by
  have hlogged : s.logged op.single = (s.advance 1).write op.key op.effect s.nextTs := by
    rw [logged, op.operations_single]
    rfl
  rw [hlogged, advance_write, advance_advance, List.length_cons, Nat.add_comm rest.length]
  rfl

/-- While there is room for all of them, single calls write what a batch writes. -/
theorem run_singles (s : Lsm) (operations : List BatchOperation)
    (hroom : ¬ ((s.advance operations.length).writes s.nextTs operations).full) :
    Along step (fun s op => ¬ s.Rotates op) s (operations.map BatchOperation.single) ∧
      run step s (operations.map BatchOperation.single) =
        (s.advance operations.length).writes s.nextTs operations := by
  induction operations generalizing s with
  | nil => exact ⟨trivial, rfl⟩
  | cons op rest ih =>
      rw [writes_cons] at hroom ⊢
      have hstays : ¬ s.Rotates op.single := by
        rintro ⟨_, hfull⟩
        exact not_full_of_writes hroom hfull
      have hstep : s.step op.single = s.logged op.single := by
        rw [step_eq, if_neg hstays]
      obtain ⟨halong, hrun⟩ := ih (s.logged op.single) hroom
      rw [List.map_cons, run_cons, hstep]
      refine ⟨⟨hstays, ?_⟩, hrun⟩
      rw [hstep]
      exact halong

/-- **A batch is its operations in order.**  If it does not rotate the memtable, it leaves the
state that the single calls leave, none of which rotates the memtable either: the same log, the
same versions in the memtable and the same next timestamp. -/
theorem writeBatch_eq_singles (s : Lsm) (batch : WriteBatch)
    (hroom : ¬ s.Rotates (.writeBatch batch.intoOperations)) :
    ∃ s', exec (writeBatch noFaults batch.intoOperations) s = (.ok (), s') ∧
      run step s (batch.operations.map BatchOperation.single) = s' ∧
      Along step (fun s op => ¬ s.Rotates op) s (batch.operations.map BatchOperation.single) ∧
      s'.wal.pending = s.wal.pending ++ batchRecords s.nextTs batch.operations ∧
      s'.nextTs = s.nextTs + batch.operations.length ∧
      ∀ key ts, s'.getAtTs key ts =
        (run step s (batch.operations.map BatchOperation.single)).getAtTs key ts := by
  unfold WriteBatch.intoOperations at hroom ⊢
  generalize batch.operations = operations at hroom
  have hrun : Along step (fun s op => ¬ s.Rotates op) s (operations.map BatchOperation.single) ∧
      run step s (operations.map BatchOperation.single) =
        (s.advance operations.length).writes s.nextTs operations := by
    cases operations with
    | nil => exact ⟨trivial, rfl⟩
    | cons op rest => exact run_singles s (op :: rest) fun hfull => hroom ⟨rfl, hfull⟩
  have hbatch : s.step (.writeBatch operations) =
      (s.advance operations.length).writes s.nextTs operations := by
    rw [step_eq, if_neg hroom]
    rfl
  refine ⟨_, ?_, hrun.2, hrun.1, ?_, ?_, ?_⟩
  · rw [← hbatch]
    refine Prod.ext ?_ rfl
    rw [exec_writeBatch]
  · rw [writes_eq]
    rfl
  · rw [nextTs_writes]
    rfl
  · intro key ts
    rw [hrun.2]

theorem writeBatch_eq_singles_repeated :
    ∃ s', exec (writeBatch noFaults
          ((((WriteBatch.new.put [1] [10]).delete [2]).put [1] [11]).intoOperations))
        (openDir 100 Dir.empty) = (.ok (), s') ∧
      run step (openDir 100 Dir.empty)
        [.put [1] [10], .delete [2], .put [1] [11]] = s' ∧
      Along step (fun s op => ¬ s.Rotates op) (openDir 100 Dir.empty)
        [.put [1] [10], .delete [2], .put [1] [11]] ∧
      s'.wal.pending = [] ++ batchRecords 1 [.put [1] [10], .delete [2], .put [1] [11]] ∧
      s'.nextTs = 1 + 3 ∧
      ∀ key ts, s'.getAtTs key ts = (run step (openDir 100 Dir.empty)
        [.put [1] [10], .delete [2], .put [1] [11]]).getAtTs key ts :=
  writeBatch_eq_singles (openDir 100 Dir.empty)
    (((WriteBatch.new.put [1] [10]).delete [2]).put [1] [11]) (by decide)

end Lsm
end Crabstash

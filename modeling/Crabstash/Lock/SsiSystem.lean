import Mathlib.Data.List.MinMax
import Crabstash.Foundations.Run
import Crabstash.Foundations.SerializationGraph
import Crabstash.Lock.Ssi

/-!
# Transactions on an `SSIManager`

A number of serializable transactions that use one manager and one counter.
Each begins with a start timestamp from the counter, reads and writes, draws a
commit timestamp and is validated; these are single steps, and the steps of
different transactions come in any order.

What a transaction has read and written is logged next to the manager, which
only keeps hashes.  A read sees the version with the largest commit timestamp
not above the start timestamp among the transactions that have been accepted by
then.
-/

namespace Crabstash

/-- How far the commit of a transaction has come. -/
inductive TxnStatus where
  | running
  | committing (commitTs : ℕ)
  | accepted (commitTs : ℕ)
  | rejected (commitTs : ℕ)
  deriving DecidableEq, Repr

/-- A transaction with the versions it has read, by the commit timestamp of the writer. -/
structure TxnLog where
  startTs : ℕ
  status : TxnStatus
  reads : List (Bytes × WithBot ℕ)
  writes : List Bytes

/-- The manager, the counter of timestamps, and what each transaction has done. -/
structure SsiSystem where
  manager : SSIManager
  nextTs : ℕ
  txns : HashMap ℕ TxnLog

/-- A step of one of the transactions; drawing the commit timestamp and validating are two. -/
inductive SsiStep where
  | begin (txnId : ℕ)
  | read (txnId : ℕ) (key : Bytes)
  | write (txnId : ℕ) (key : Bytes)
  | drawCommitTs (txnId : ℕ)
  | validate (txnId : ℕ)
  deriving DecidableEq, Repr

namespace TxnLog

/-- The commit timestamp, if the transaction is accepted and writes the key. -/
def version (t : TxnLog) (key : Bytes) : Option ℕ :=
  match t.status with
  | .accepted commitTs => if key ∈ t.writes then some commitTs else none
  | _ => none

theorem version_eq_some {t : TxnLog} {key : Bytes} {commitTs : ℕ} :
    t.version key = some commitTs ↔ t.status = .accepted commitTs ∧ key ∈ t.writes := by
  unfold version
  split
  · next c hstatus =>
      rw [hstatus]
      by_cases hkey : key ∈ t.writes
      · simp [hkey]
      · simp [hkey]
  · next hnot =>
      constructor
      · intro h
        contradiction
      · rintro ⟨hstatus, _⟩
        exact absurd hstatus (hnot commitTs)

end TxnLog

namespace SsiSystem

/-- Nothing has begun. -/
def init : SsiSystem := { manager := SSIManager.new, nextTs := 1, txns := ∅ }

/-- The versions of a key that a snapshot includes. -/
def versions (s : SsiSystem) (key : Bytes) (ts : ℕ) : List ℕ :=
  s.txns.entries.filterMap fun e => (e.2.version key).filter fun commitTs => commitTs ≤ ts

/-- The last version of the key up to a timestamp, if there is one. -/
def versionAt (s : SsiSystem) (key : Bytes) (ts : ℕ) : WithBot ℕ := (s.versions key ts).maximum

/-- The system with a changed log of one transaction. -/
def setTxn (s : SsiSystem) (txnId : ℕ) (t : TxnLog) : SsiSystem :=
  { s with txns := s.txns.insert txnId t }

variable (hashKey : Bytes → UInt64)

/-- One step of one transaction; where it is not its turn, nothing happens. -/
def step (s : SsiSystem) : SsiStep → SsiSystem
  | .begin txnId =>
      match s.txns.lookup txnId with
      | some _ => s
      | none =>
          { manager := s.manager.beginTxnWithTs txnId s.nextTs
            nextTs := s.nextTs + 1
            txns := s.txns.insert txnId ⟨s.nextTs, .running, [], []⟩ }
  | .read txnId key =>
      match s.txns.lookup txnId with
      | some ⟨startTs, .running, reads, writes⟩ =>
          { s with
            manager := s.manager.recordRead hashKey txnId key
            txns := s.txns.insert txnId
              ⟨startTs, .running, (key, s.versionAt key startTs) :: reads, writes⟩ }
      | _ => s
  | .write txnId key =>
      match s.txns.lookup txnId with
      | some ⟨startTs, .running, reads, writes⟩ =>
          { s with
            manager := s.manager.recordWrite hashKey txnId key
            txns := s.txns.insert txnId ⟨startTs, .running, reads, key :: writes⟩ }
      | _ => s
  | .drawCommitTs txnId =>
      match s.txns.lookup txnId with
      | some ⟨startTs, .running, reads, writes⟩ =>
          { s with
            nextTs := s.nextTs + 1
            txns := s.txns.insert txnId ⟨startTs, .committing s.nextTs, reads, writes⟩ }
      | _ => s
  | .validate txnId =>
      match s.txns.lookup txnId with
      | some ⟨startTs, .committing commitTs, reads, writes⟩ =>
          match s.manager.validateAndCommit txnId startTs commitTs with
          | (.ok (), manager) =>
              { s with
                manager
                txns := s.txns.insert txnId ⟨startTs, .accepted commitTs, reads, writes⟩ }
          | (.error _, manager) =>
              { s with
                manager
                txns := s.txns.insert txnId ⟨startTs, .rejected commitTs, reads, writes⟩ }
      | _ => s

/-- The accepted transactions with their reads and writes. -/
def history (s : SsiSystem) : History ℕ Bytes ℕ where
  Committed := fun txnId => ∃ t commitTs, s.txns.lookup txnId = some t ∧
    t.status = .accepted commitTs
  commitTs := fun txnId =>
    match (s.txns.lookup txnId).map TxnLog.status with
    | some (.accepted commitTs) => commitTs
    | _ => 0
  Reads := fun txnId key version => ∃ t, s.txns.lookup txnId = some t ∧ (key, version) ∈ t.reads
  Writes := fun txnId key => ∃ t, s.txns.lookup txnId = some t ∧ key ∈ t.writes

end SsiSystem
end Crabstash

import Crabstash.Common.Error
import Crabstash.Common.Key
import Crabstash.Foundations.HashMap

/-!
# Transactions

`transaction.rs`: isolation levels, write sets, transactions, and the
`TransactionManager`, which keeps the write keys of what has committed and checks
serializable transactions against them.

A write set is built so that no key is both put and deleted.
-/

namespace Crabstash

/-- The isolation levels a transaction can be begun with. -/
inductive IsolationLevel where
  | snapshot
  | serializable
  | serializableReadOnly
  | serializableDeferrable
  deriving DecidableEq, Repr

namespace IsolationLevel

/-- `is_serializable`. -/
def isSerializable : IsolationLevel → Bool
  | snapshot => false
  | serializable => true
  | serializableReadOnly => true
  | serializableDeferrable => true

/-- `is_read_only`. -/
def isReadOnly : IsolationLevel → Bool
  | snapshot => false
  | serializable => false
  | serializableReadOnly => true
  | serializableDeferrable => true

/-- `is_deferrable`. -/
def isDeferrable : IsolationLevel → Bool
  | serializableDeferrable => true
  | _ => false

end IsolationLevel

/-- Where a transaction stands. -/
inductive TransactionState where
  | active
  | committed
  | aborted
  deriving DecidableEq, Repr

/-! ## Write sets -/

/-- What a transaction has written: a key is put or deleted, not both. -/
structure WriteSet where
  puts : HashMap Bytes Bytes
  deletes : List Bytes
  nodup : deletes.Nodup
  disjoint : ∀ key ∈ deletes, key ∉ puts

namespace WriteSet

/-- `WriteSet::new`. -/
def new : WriteSet where
  puts := ∅
  deletes := []
  nodup := List.nodup_nil
  disjoint := fun _ h => absurd h List.not_mem_nil

/-- `put`: the key is no longer deleted. -/
def put (w : WriteSet) (key value : Bytes) : WriteSet where
  puts := w.puts.insert key value
  deletes := w.deletes.erase key
  nodup := w.nodup.erase key
  disjoint := by
    intro key' hkey'
    rw [w.nodup.mem_erase_iff] at hkey'
    rw [AList.mem_insert, not_or]
    exact ⟨hkey'.1, w.disjoint key' hkey'.2⟩

/-- `delete`: what was put under the key is forgotten. -/
def delete (w : WriteSet) (key : Bytes) : WriteSet where
  puts := w.puts.erase key
  deletes := w.deletes.insert key
  nodup := w.nodup.insert
  disjoint := by
    intro key' hkey'
    rw [AList.mem_erase, not_and]
    rcases List.mem_insert_iff.mp hkey' with rfl | hkey'
    · intro hne
      exact absurd rfl hne
    · intro _
      exact w.disjoint key' hkey'

/-- `None`: not in the set; `Some(None)`: deleted. -/
def get (w : WriteSet) (key : Bytes) : Option (Option Bytes) :=
  if w.deletes.contains key then some none else (w.puts.lookup key).map some

/-- `iter_puts`, in the order of the map. -/
def iterPuts (w : WriteSet) : List (Bytes × Bytes) := w.puts.entries.map fun e => (e.1, e.2)

/-- `iter_deletes`. -/
def iterDeletes (w : WriteSet) : List Bytes := w.deletes

/-- The keys that `TransactionManager::commit` collects. -/
def writeKeys (w : WriteSet) : List Bytes := w.puts.keys ++ w.deletes

end WriteSet

/-! ## Transactions -/

/-- A transaction as its handle holds it. -/
structure Transaction where
  id : ℕ
  startTs : ℕ
  commitTs : Option ℕ
  isolation : IsolationLevel
  state : TransactionState
  writeSet : WriteSet
  readSet : List Bytes

namespace Transaction

/-- `Transaction::new`. -/
def new (id startTs : ℕ) (isolation : IsolationLevel) : Transaction :=
  { id, startTs, commitTs := none, isolation, state := .active, writeSet := WriteSet.new
    readSet := [] }

/-- `record_read`: only a serializable transaction that may write keeps what it reads. -/
def recordRead (t : Transaction) (key : Bytes) : Transaction :=
  if t.isolation.isSerializable && !t.isolation.isReadOnly then
    { t with readSet := t.readSet.insert key }
  else t

/-- `is_active`. -/
def isActive (t : Transaction) : Bool := t.state == .active

end Transaction

/-! ## The transaction manager -/

/-- An element of `committed_txns`. -/
structure CommitRecord where
  commitTs : ℕ
  startTs : ℕ
  writeKeys : List Bytes
  deriving DecidableEq, Repr

/-- The registry of active transactions is written but never read; `activeTxns` has the
numbers in it. -/
structure TransactionManager where
  activeTxns : List ℕ
  committedTxns : List CommitRecord
  deriving DecidableEq, Repr

namespace TransactionManager

/-- `TransactionManager::new`. -/
def new : TransactionManager := { activeTxns := [], committedTxns := [] }

/-- `begin` with a number and a start timestamp from the counters. -/
def begin (m : TransactionManager) (id startTs : ℕ) (isolation : IsolationLevel) :
    Transaction × TransactionManager :=
  (Transaction.new id startTs isolation, { m with activeTxns := m.activeTxns.insert id })

/-- `validate_serializable`: a transaction that has committed in between has written a key read
here. -/
def validateSerializable (m : TransactionManager) (t : Transaction) (commitTs : ℕ) :
    Except Error Unit :=
  if m.committedTxns.any fun other =>
      decide (t.startTs < other.commitTs) && decide (other.startTs < commitTs) &&
        t.readSet.any fun key => other.writeKeys.contains key
  then .error .transactionConflict
  else .ok ()

/-- `prepare_commit`: only the level `serializable` is validated. -/
def prepareCommit (m : TransactionManager) (t : Transaction) (commitTs : ℕ) :
    Except Error Transaction :=
  if t.isolation = .serializable then
    match m.validateSerializable t commitTs with
    | .error e => .error e
    | .ok () => .ok { t with commitTs := some commitTs }
  else .ok { t with commitTs := some commitTs }

/-- `commit`: the transaction is recorded with its write set, whatever its level. -/
def commit (m : TransactionManager) (t : Transaction) :
    Except Error (TransactionManager × Transaction) :=
  if !t.isActive then .error .transactionAborted
  else
    match t.commitTs with
    | none => .error .transactionAborted
    | some commitTs =>
        .ok ({ activeTxns := m.activeTxns.erase t.id
               committedTxns := m.committedTxns ++ [⟨commitTs, t.startTs, t.writeSet.writeKeys⟩] },
          { t with state := .committed })

/-- `abort`. -/
def abort (m : TransactionManager) (t : Transaction) : TransactionManager × Transaction :=
  ({ m with activeTxns := m.activeTxns.erase t.id }, { t with state := .aborted })

theorem prepareCommit_ok {m : TransactionManager} {t t' : Transaction} {commitTs : ℕ}
    (h : m.prepareCommit t commitTs = .ok t') : t' = { t with commitTs := some commitTs } := by
  unfold prepareCommit at h
  split at h
  · split at h
    · contradiction
    · exact (Except.ok.inj h).symm
  · exact (Except.ok.inj h).symm

/-- Only an active transaction with a commit timestamp is committed. -/
theorem commit_ok {m m' : TransactionManager} {t t' : Transaction}
    (h : m.commit t = .ok (m', t')) :
    t.isActive = true ∧ t.commitTs ≠ none ∧ t' = { t with state := .committed } := by
  unfold commit at h
  split at h
  · contradiction
  · next hactive =>
      split at h
      · contradiction
      · next commitTs hcommitTs =>
          refine ⟨by simpa using hactive, by simp [hcommitTs], ?_⟩
          exact (Prod.mk.inj (Except.ok.inj h)).2.symm

end TransactionManager
end Crabstash

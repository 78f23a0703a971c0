import Crabstash.Storage.MemTable

/-!
# The write-ahead log

`WalRecord` and the part of `Wal` that the Lsm uses: with the default options a
record goes into a write buffer, and only `sync` (or dropping the handle, which
syncs) moves the buffer into the file.  Before that the operating system may
have any initial part of the buffer, so a crash keeps the file and an initial
part of the buffer.

Files are kept here as the list of records they decode to.  `replay` is the
loop of `Lsm::open` over the records of one file.
-/

namespace Crabstash

/-- The two kinds of record. -/
inductive RecordType where
  | put
  | delete
  deriving DecidableEq, Repr

/-- A record of the log; a delete has no value. -/
structure WalRecord where
  recordType : RecordType
  key : Bytes
  value : Option Bytes
  timestamp : ℕ
  deriving DecidableEq, Repr

namespace WalRecord

/-- The version of the key that replaying the record creates. -/
def version (record : WalRecord) : Key := ⟨record.key, record.timestamp⟩

/-- What replaying the record stores; a put without a value stores the empty one. -/
def effect (record : WalRecord) : Option Bytes :=
  match record.recordType with
  | .put => some (record.value.getD [])
  | .delete => none

/-- The record `put` (a value) or `delete` (none) writes. -/
def ofWrite (key : Bytes) (value : Option Bytes) (ts : ℕ) : WalRecord :=
  { recordType := if value.isSome then .put else .delete, key, value, timestamp := ts }

@[simp] theorem version_ofWrite (key : Bytes) (value : Option Bytes) (ts : ℕ) :
    (ofWrite key value ts).version = ⟨key, ts⟩ := rfl

@[simp] theorem effect_ofWrite (key : Bytes) (value : Option Bytes) (ts : ℕ) :
    (ofWrite key value ts).effect = value := by
  cases value <;> rfl

end WalRecord

/-- An open log: the number of its file and the records still in the buffer. -/
structure Wal where
  id : ℕ
  pending : List WalRecord

namespace Wal

/-- `Wal::create`: nothing is pending. -/
def create (id : ℕ) : Wal := { id, pending := [] }

/-- `append`: the record is pending until it is written out. -/
def append (wal : Wal) (record : WalRecord) : Wal :=
  { wal with pending := wal.pending ++ [record] }

/-- `append_batch`. -/
def appendBatch (wal : Wal) (records : List WalRecord) : Wal :=
  { wal with pending := wal.pending ++ records }

theorem appendBatch_cons (wal : Wal) (record : WalRecord) (records : List WalRecord) :
    wal.appendBatch (record :: records) = (wal.append record).appendBatch records := by
  simp [appendBatch, append]

end Wal

namespace MemTable

/-- One round of the replay loop of `Lsm::open`. -/
def replayRecord (m : MemTable) (record : WalRecord) : MemTable :=
  match record.recordType with
  | .put => m.put record.version (record.value.getD [])
  | .delete => m.delete record.version

/-- The replay loop over the records of a file. -/
def replay (m : MemTable) (records : List WalRecord) : MemTable :=
  records.foldl replayRecord m

theorem replayRecord_eq (m : MemTable) (record : WalRecord) :
    m.replayRecord record = m.record record.version record.effect := by
  unfold replayRecord WalRecord.effect
  cases record.recordType <;> rfl

end MemTable
end Crabstash

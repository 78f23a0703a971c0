import Crabstash.Common.Key
import Crabstash.Foundations.HashMap

/-!
# Serializable snapshot isolation

`SSIManager` of `ssi.rs`.  Every active transaction has a set of what it read
and wrote; a transaction that is accepted leaves its writes in an index by key
hash and its sets in the map of committed transactions, and later validations
look there.

`validate_and_commit` is one action, since it runs under the commit lock.  When
it rejects, the conflicts it found stay in the set of the transaction.

The hash function is code of another package and a parameter here.  The bloom
filter, the list of recent commits and the statistics are left out: no method
that decides anything reads them.
-/

namespace Crabstash

/-- The two kinds of edge between concurrent transactions. -/
inductive ConflictType where
  | readWrite
  | writeRead
  deriving DecidableEq, Repr

/-- An edge between two transactions: who, with whom, and which of the two has read. -/
structure RWConflict where
  fromTxn : ℕ
  toTxn : ℕ
  conflictType : ConflictType
  deriving DecidableEq, Repr

/-- Why a commit is refused. -/
inductive SSIConflict where
  | writeSkew (conflictingTs : ℕ)
  | phantom (conflictingTs : ℕ)
  | dangerousStructure (inboundFrom outboundTo : ℕ)
  | txnNotFound
  deriving DecidableEq, Repr

/-! ## Read and write sets -/

/-- `key_in_ranges`. -/
def keyInRanges (key : Bytes) (ranges : List (Bound × Bound)) : Bool := ranges.any (inRange key)

/-- What an active transaction has read and written, keys as hashes, and the conflicts found so
far. -/
structure ReadWriteSet where
  readKeys : List UInt64
  writeKeys : List UInt64
  readRanges : List (Bound × Bound)
  inboundConflicts : List RWConflict
  outboundConflicts : List RWConflict
  deriving DecidableEq, Repr

namespace ReadWriteSet

/-- `ReadWriteSet::new`. -/
def new : ReadWriteSet :=
  { readKeys := [], writeKeys := [], readRanges := [], inboundConflicts := []
    outboundConflicts := [] }

/-- `record_read`: a set of hashes, so a second read changes nothing. -/
def recordRead (rw : ReadWriteSet) (hash : UInt64) : ReadWriteSet :=
  { rw with readKeys := rw.readKeys.insert hash }

/-- `record_write`. -/
def recordWrite (rw : ReadWriteSet) (hash : UInt64) : ReadWriteSet :=
  { rw with writeKeys := rw.writeKeys.insert hash }

/-- `record_range_read`; ranges are a vector, and a second scan is listed again. -/
def recordRangeRead (rw : ReadWriteSet) (start last : Bound) : ReadWriteSet :=
  { rw with readRanges := rw.readRanges ++ [(start, last)] }

/-- The inbound conflicts that a validation has found, behind those from before. -/
def addInboundConflicts (rw : ReadWriteSet) (conflicts : List RWConflict) : ReadWriteSet :=
  { rw with inboundConflicts := rw.inboundConflicts ++ conflicts }

/-- `add_outbound_conflict`. -/
def addOutboundConflict (rw : ReadWriteSet) (conflict : RWConflict) : ReadWriteSet :=
  { rw with outboundConflicts := rw.outboundConflicts ++ [conflict] }

/-- Some transaction before, some transaction after, and none that is both. -/
def hasDangerousStructure (rw : ReadWriteSet) : Bool :=
  if rw.inboundConflicts.isEmpty || rw.outboundConflicts.isEmpty then false
  else rw.inboundConflicts.all fun c => rw.outboundConflicts.all fun c' => c.fromTxn != c'.toTxn

/-- The decision on the conflicts of a transaction. -/
def verdict (rw : ReadWriteSet) : Except SSIConflict Unit :=
  if rw.hasDangerousStructure then
    .error (.dangerousStructure ((rw.inboundConflicts.head?.map RWConflict.fromTxn).getD 0)
      ((rw.outboundConflicts.head?.map RWConflict.toTxn).getD 0))
  else
    match rw.inboundConflicts with
    | conflict :: _ => .error (.writeSkew conflict.fromTxn)
    | [] => .ok ()

/-- The dangerous structure decides which error it is, not whether there is one: it needs an
inbound conflict, and without it there is an error as soon as there is one. -/
theorem verdict_eq_ok_iff (rw : ReadWriteSet) : rw.verdict = .ok () ↔ rw.inboundConflicts = [] := by
  unfold verdict
  cases hinbound : rw.inboundConflicts with
  | nil => simp [hasDangerousStructure, hinbound]
  | cons conflict rest => cases rw.hasDangerousStructure <;> simp

/-- `has_write_read_overlap`: one of the written hashes is among those that another has read.
-/
def hasWriteReadOverlap (rw : ReadWriteSet) (otherReads : List UInt64) : Bool :=
  rw.writeKeys.any fun hash => otherReads.contains hash

end ReadWriteSet

/-! ## The manager -/

/-- What is kept of a committed transaction, under its commit timestamp. -/
structure CommittedTxn where
  startTs : ℕ
  readSet : List UInt64
  writeSet : List UInt64
  writeKeys : List Bytes
  deriving DecidableEq, Repr

/-- An entry of `write_index`: who has committed a write of the hash, and when it began. -/
structure WriteIndexEntry where
  commitTs : ℕ
  startTs : ℕ
  deriving DecidableEq, Repr

/-- The manager: committed transactions, active ones, and the counters that the shortcuts read.
-/
structure SSIManager where
  committedTxns : HashMap ℕ CommittedTxn
  activeTxns : HashMap ℕ ReadWriteSet
  activeStartTs : HashMap ℕ ℕ
  readOnlyTxns : HashMap ℕ Bool
  activeWriters : ℕ
  writeIndex : HashMap UInt64 (List WriteIndexEntry)
  watermark : ℕ
  safeSnapshot : ℕ

namespace SSIManager

/-- `SSIManager::new`. -/
def new : SSIManager :=
  { committedTxns := ∅, activeTxns := ∅, activeStartTs := ∅, readOnlyTxns := ∅, activeWriters := 0
    writeIndex := ∅, watermark := 0, safeSnapshot := 0 }

/-- `update_safe_snapshot`; `u64::MAX` when nothing is active.  It is done here together with the
change of the starts before it, and step by step in `SnapshotHistory`. -/
def updateSafeSnapshot (s : SSIManager) : SSIManager :=
  let minStartTs := (s.activeStartTs.entries.map Sigma.snd).min?.getD (2 ^ 64 - 1)
  { s with safeSnapshot := minStartTs }

/-- `begin_txn_with_ts`. -/
def beginTxnWithTs (s : SSIManager) (txnId startTs : ℕ) : SSIManager :=
  ({ s with
    activeTxns := s.activeTxns.insert txnId ReadWriteSet.new
    activeStartTs := s.activeStartTs.insert txnId startTs } : SSIManager).updateSafeSnapshot

/-- `begin_read_only_txn`: the transaction has a start timestamp and no read and write set. -/
def beginReadOnlyTxn (s : SSIManager) (txnId startTs : ℕ) : SSIManager :=
  ({ s with
    activeStartTs := s.activeStartTs.insert txnId startTs
    readOnlyTxns := s.readOnlyTxns.insert txnId true } : SSIManager).updateSafeSnapshot

/-- `has_active_writers`. -/
def hasActiveWriters (s : SSIManager) : Bool := decide (0 < s.activeWriters)

section Hash

variable (hashKey : Bytes → UInt64)

/-- `record_read` of the manager; a transaction that is not active is not recorded. -/
def recordRead (s : SSIManager) (txnId : ℕ) (key : Bytes) : SSIManager :=
  match s.activeTxns.lookup txnId with
  | none => s
  | some rw => { s with activeTxns := s.activeTxns.insert txnId (rw.recordRead (hashKey key)) }

/-- `record_write` of the manager: the first write of a transaction makes it an active writer.
-/
def recordWrite (s : SSIManager) (txnId : ℕ) (key : Bytes) : SSIManager :=
  match s.activeTxns.lookup txnId with
  | none => s
  | some rw =>
      { s with
        activeTxns := s.activeTxns.insert txnId (rw.recordWrite (hashKey key))
        activeWriters := if rw.writeKeys.isEmpty then s.activeWriters + 1 else s.activeWriters }

end Hash

/-- `record_range_read` of the manager. -/
def recordRangeRead (s : SSIManager) (txnId : ℕ) (start last : Bound) : SSIManager :=
  match s.activeTxns.lookup txnId with
  | none => s
  | some rw => { s with activeTxns := s.activeTxns.insert txnId (rw.recordRangeRead start last) }

/-- The read check: the entries in the write index, under the keys that were read, of
transactions that overlap with this one. -/
def findInboundConflicts (s : SSIManager) (rw : ReadWriteSet) (txnId readTs commitTs : ℕ) :
    List RWConflict :=
  rw.readKeys.flatMap fun hash =>
    ((s.writeIndex.lookup hash).getD []).filterMap fun entry =>
      if readTs < entry.commitTs ∧ entry.startTs < commitTs then
        some { fromTxn := entry.commitTs, toTxn := txnId, conflictType := .readWrite }
      else none

/-- The loop over the committed transactions.  A phantom ends it; the conflicts found up
to there stay in the set. -/
def checkCommitted (txnId readTs commitTs : ℕ) :
    List (Sigma fun _ : ℕ => CommittedTxn) → ReadWriteSet → Except SSIConflict Unit × ReadWriteSet
  | [], rw => (.ok (), rw)
  | ⟨ts, committed⟩ :: rest, rw =>
      if readTs < ts ∧ ts < commitTs then
        let rw :=
          if rw.hasWriteReadOverlap committed.readSet then
            rw.addOutboundConflict { fromTxn := txnId, toTxn := ts, conflictType := .writeRead }
          else rw
        if committed.writeKeys.any fun key => keyInRanges key rw.readRanges then
          (.error (.phantom ts), rw)
        else checkCommitted txnId readTs commitTs rest rw
      else checkCommitted txnId readTs commitTs rest rw

/-- What is left to be done once a transaction is accepted. -/
def publish (s : SSIManager) (rw : ReadWriteSet) (txnId readTs commitTs : ℕ)
    (writtenKeys : List Bytes) : SSIManager :=
  let startTs := (s.activeStartTs.lookup txnId).getD readTs
  let indexEntry : WriteIndexEntry := { commitTs, startTs }
  let committedTxn : CommittedTxn :=
    { startTs, readSet := rw.readKeys, writeSet := rw.writeKeys, writeKeys := writtenKeys }
  ({ s with
    writeIndex := rw.writeKeys.foldl (fun index hash =>
      index.insert hash ((index.lookup hash).getD [] ++ [indexEntry])) s.writeIndex
    committedTxns := s.committedTxns.insert commitTs committedTxn
    activeTxns := s.activeTxns.erase txnId
    activeStartTs := s.activeStartTs.erase txnId
    activeWriters := if rw.writeKeys.isEmpty then s.activeWriters else s.activeWriters - 1 } :
      SSIManager).updateSafeSnapshot

/-- The checks of a validation, and the set with the conflicts they found. -/
def checkConflicts (s : SSIManager) (rw : ReadWriteSet) (txnId readTs commitTs : ℕ) :
    Except SSIConflict Unit × ReadWriteSet :=
  let rw := rw.addInboundConflicts (s.findInboundConflicts rw txnId readTs commitTs)
  match checkCommitted txnId readTs commitTs s.committedTxns.entries rw with
  | (.error e, rw) => (.error e, rw)
  | (.ok (), rw) => (rw.verdict, rw)

/-- `validate_and_commit_with_keys`: the conflicts found stay with the transaction, and only a
commit without one moves it to `committed_txns`. -/
def validateAndCommitWithKeys (s : SSIManager) (txnId readTs commitTs : ℕ)
    (writtenKeys : List Bytes) : Except SSIConflict Unit × SSIManager :=
  match s.activeTxns.lookup txnId with
  | none => (.error .txnNotFound, s)
  | some rw =>
      let (checked, rw) := s.checkConflicts rw txnId readTs commitTs
      let s := { s with activeTxns := s.activeTxns.insert txnId rw }
      match checked with
      | .error e => (.error e, s)
      | .ok () => (.ok (), s.publish rw txnId readTs commitTs writtenKeys)

/-- `validate_and_commit`: the same with no written keys handed on. -/
def validateAndCommit (s : SSIManager) (txnId readTs commitTs : ℕ) :
    Except SSIConflict Unit × SSIManager :=
  s.validateAndCommitWithKeys txnId readTs commitTs []

/-- `abort_txn`: what the manager holds of the transaction goes; `write_index` and the
committed transactions stay. -/
def abortTxn (s : SSIManager) (txnId : ℕ) : SSIManager :=
  let activeWriters := match s.activeTxns.lookup txnId with
    | none => s.activeWriters
    | some rw => if rw.writeKeys.isEmpty then s.activeWriters else s.activeWriters - 1
  ({ s with
    activeTxns := s.activeTxns.erase txnId
    activeStartTs := s.activeStartTs.erase txnId
    readOnlyTxns := s.readOnlyTxns.erase txnId
    activeWriters } : SSIManager).updateSafeSnapshot

/-- `commit_read_only_txn`. -/
def commitReadOnlyTxn (s : SSIManager) (txnId : ℕ) : SSIManager :=
  ({ s with
    activeStartTs := s.activeStartTs.erase txnId
    readOnlyTxns := s.readOnlyTxns.erase txnId } : SSIManager).updateSafeSnapshot

/-- `advance_watermark`: what was committed before it is forgotten. -/
def advanceWatermark (s : SSIManager) (newWatermark : ℕ) : SSIManager :=
  if s.watermark < newWatermark then
    { s with
      watermark := newWatermark
      committedTxns := s.committedTxns.retain fun ts txn =>
        if newWatermark ≤ ts then some txn else none
      writeIndex := s.writeIndex.retain fun _ entries =>
        let kept := entries.filter fun entry => newWatermark ≤ entry.commitTs
        if kept.isEmpty then none else some kept }
  else s

/-- `wait_for_safe_snapshot`.  Whether the wait ends before its deadline is decided by the
clock. -/
def waitForSafeSnapshot (s : SSIManager) (timedOut : Bool) : Option ℕ :=
  if timedOut || s.hasActiveWriters then none else some s.safeSnapshot

theorem recordRead_of_active {hashKey : Bytes → UInt64} {s : SSIManager} {txnId : ℕ}
    {rw : ReadWriteSet} (h : s.activeTxns.lookup txnId = some rw) (key : Bytes) :
    s.recordRead hashKey txnId key =
      { s with activeTxns := s.activeTxns.insert txnId (rw.recordRead (hashKey key)) } := by
  rw [recordRead, h]

theorem recordWrite_of_active {hashKey : Bytes → UInt64} {s : SSIManager} {txnId : ℕ}
    {rw : ReadWriteSet} (h : s.activeTxns.lookup txnId = some rw) (key : Bytes) :
    s.recordWrite hashKey txnId key =
      { s with
        activeTxns := s.activeTxns.insert txnId (rw.recordWrite (hashKey key))
        activeWriters :=
          if rw.writeKeys.isEmpty then s.activeWriters + 1 else s.activeWriters } := by
  rw [recordWrite, h]

/-! ## What a record changes -/

theorem activeTxns_recordRead (hashKey : Bytes → UInt64) (s : SSIManager) (txnId : ℕ)
    (key : Bytes) : (s.recordRead hashKey txnId key).activeTxns =
      s.activeTxns.amend txnId fun rw => rw.recordRead (hashKey key) := by
  unfold recordRead HashMap.amend
  cases s.activeTxns.lookup txnId <;> rfl

theorem activeTxns_recordWrite (hashKey : Bytes → UInt64) (s : SSIManager) (txnId : ℕ)
    (key : Bytes) : (s.recordWrite hashKey txnId key).activeTxns =
      s.activeTxns.amend txnId fun rw => rw.recordWrite (hashKey key) := by
  unfold recordWrite HashMap.amend
  cases s.activeTxns.lookup txnId <;> rfl

theorem activeTxns_recordRangeRead (s : SSIManager) (txnId : ℕ) (start last : Bound) :
    (s.recordRangeRead txnId start last).activeTxns =
      s.activeTxns.amend txnId fun rw => rw.recordRangeRead start last := by
  unfold recordRangeRead HashMap.amend
  cases s.activeTxns.lookup txnId <;> rfl

/-- What a record leaves alone. -/
structure SameCommits (s s' : SSIManager) : Prop where
  activeStartTs : s'.activeStartTs = s.activeStartTs
  committedTxns : s'.committedTxns = s.committedTxns
  writeIndex : s'.writeIndex = s.writeIndex
  watermark : s'.watermark = s.watermark

theorem sameCommits_recordRead (hashKey : Bytes → UInt64) (s : SSIManager) (txnId : ℕ)
    (key : Bytes) : SameCommits s (s.recordRead hashKey txnId key) := by
  unfold recordRead
  cases s.activeTxns.lookup txnId <;> exact ⟨rfl, rfl, rfl, rfl⟩

theorem sameCommits_recordWrite (hashKey : Bytes → UInt64) (s : SSIManager) (txnId : ℕ)
    (key : Bytes) : SameCommits s (s.recordWrite hashKey txnId key) := by
  unfold recordWrite
  cases s.activeTxns.lookup txnId <;> exact ⟨rfl, rfl, rfl, rfl⟩

theorem sameCommits_recordRangeRead (s : SSIManager) (txnId : ℕ) (start last : Bound) :
    SameCommits s (s.recordRangeRead txnId start last) := by
  unfold recordRangeRead
  cases s.activeTxns.lookup txnId <;> exact ⟨rfl, rfl, rfl, rfl⟩

/-! ## What a validation changes -/

theorem checkCommitted_snd (txnId readTs commitTs : ℕ)
    (committed : List (Sigma fun _ : ℕ => CommittedTxn)) (rw : ReadWriteSet) :
    ∃ outbound, (checkCommitted txnId readTs commitTs committed rw).2 =
      { rw with outboundConflicts := outbound } := by
  induction committed generalizing rw with
  | nil => exact ⟨rw.outboundConflicts, rfl⟩
  | cons entry rest ih =>
      obtain ⟨ts, txn⟩ := entry
      rw [checkCommitted]
      split
      · by_cases hoverlap : rw.hasWriteReadOverlap txn.readSet
        · simp only [hoverlap, if_true]
          split
          · exact ⟨_, rfl⟩
          · exact ih (rw.addOutboundConflict _)
        · simp only [hoverlap, Bool.false_eq_true, if_false]
          split
          · exact ⟨_, rfl⟩
          · exact ih rw
      · exact ih rw

theorem checkConflicts_snd (s : SSIManager) (rw : ReadWriteSet) (txnId readTs commitTs : ℕ) :
    ∃ outbound, (s.checkConflicts rw txnId readTs commitTs).2 =
      { rw with
        inboundConflicts := rw.inboundConflicts ++ s.findInboundConflicts rw txnId readTs commitTs
        outboundConflicts := outbound } := by
  obtain ⟨outbound, houtbound⟩ := checkCommitted_snd txnId readTs commitTs s.committedTxns.entries
    (rw.addInboundConflicts (s.findInboundConflicts rw txnId readTs commitTs))
  refine ⟨outbound, ?_⟩
  rw [checkConflicts]
  split
  · next hchecked =>
      rw [hchecked] at houtbound
      exact houtbound
  · next hchecked =>
      rw [hchecked] at houtbound
      exact houtbound

/-- A key that a transaction committed in between has supplied is in a range that was read. -/
def FindsPhantom (s : SSIManager) (rw : ReadWriteSet) (readTs commitTs : ℕ) : Prop :=
  ∃ ts txn, s.committedTxns.lookup ts = some txn ∧ readTs < ts ∧ ts < commitTs ∧
    ∃ key ∈ txn.writeKeys, keyInRanges key rw.readRanges = true

private theorem checkCommitted_ok_iff (txnId readTs commitTs : ℕ)
    (committed : List (Sigma fun _ : ℕ => CommittedTxn)) (rw : ReadWriteSet) :
    (checkCommitted txnId readTs commitTs committed rw).1 = .ok () ↔
      ∀ e ∈ committed, readTs < e.1 → e.1 < commitTs →
        (e.2.writeKeys.any fun key => keyInRanges key rw.readRanges) = false := by
  induction committed generalizing rw with
  | nil => simp [checkCommitted]
  | cons e rest ih =>
      obtain ⟨ts, txn⟩ := e
      rw [checkCommitted, List.forall_mem_cons]
      by_cases hbetween : readTs < ts ∧ ts < commitTs
      · -- the outbound conflict does not touch the ranges
        have hranges : ∀ conflict, (rw.addOutboundConflict conflict).readRanges = rw.readRanges :=
          fun _ => rfl
        rw [if_pos hbetween]
        cases hany : txn.writeKeys.any fun key => keyInRanges key rw.readRanges with
        | true =>
            by_cases hoverlap : rw.hasWriteReadOverlap txn.readSet
            · simp [hoverlap, hranges, hany, hbetween]
            · simp [hoverlap, hany, hbetween]
        | false =>
            by_cases hoverlap : rw.hasWriteReadOverlap txn.readSet
            · simp [hoverlap, hranges, hany, ih]
            · simp [hoverlap, hany, ih]
      · rw [if_neg hbetween, ih]
        constructor
        · intro h
          exact ⟨fun hread hcommit => absurd ⟨hread, hcommit⟩ hbetween, h⟩
        · exact And.right

/-- A transaction that passes the checks has no inbound conflict, from now or before. -/
theorem checkConflicts_ok {s : SSIManager} {rw : ReadWriteSet} {txnId readTs commitTs : ℕ}
    (h : (s.checkConflicts rw txnId readTs commitTs).1 = .ok ()) :
    rw.inboundConflicts = [] ∧ s.findInboundConflicts rw txnId readTs commitTs = [] := by
  obtain ⟨outbound, houtbound⟩ := s.checkConflicts_snd rw txnId readTs commitTs
  have hverdict : (s.checkConflicts rw txnId readTs commitTs).2.inboundConflicts = [] := by
    rw [checkConflicts] at h ⊢
    split at h
    · contradiction
    · next rw' hchecked =>
        show rw'.inboundConflicts = []
        have hverdict : rw'.verdict = .ok () := h
        unfold ReadWriteSet.verdict at hverdict
        split at hverdict
        · contradiction
        · split at hverdict
          · contradiction
          · next hnil => exact hnil
  rw [houtbound] at hverdict
  exact List.append_eq_nil_iff.mp hverdict

/-- A rejected validation adds the conflicts it found to the transaction's set. -/
theorem validate_error_of_active {s s' : SSIManager} {txnId readTs commitTs : ℕ}
    {writtenKeys : List Bytes} {e : SSIConflict} {rw : ReadWriteSet}
    (hactive : s.activeTxns.lookup txnId = some rw)
    (h : s.validateAndCommitWithKeys txnId readTs commitTs writtenKeys = (.error e, s')) :
    ∃ outbound, s' = { s with
      activeTxns := s.activeTxns.insert txnId
        { rw with
          inboundConflicts :=
            rw.inboundConflicts ++ s.findInboundConflicts rw txnId readTs commitTs
          outboundConflicts := outbound } } := by
  rw [validateAndCommitWithKeys, hactive] at h
  obtain ⟨outbound, hrw⟩ := s.checkConflicts_snd rw txnId readTs commitTs
  refine ⟨outbound, ?_⟩
  simp only [hrw] at h
  split at h
  · exact (Prod.mk.inj h).2.symm
  · exact absurd (Prod.mk.inj h).1 (by simp)

/-- A rejected validation changes nothing but the conflicts in the transaction's set. -/
theorem validate_error {s s' : SSIManager} {txnId readTs commitTs : ℕ} {writtenKeys : List Bytes}
    {e : SSIConflict}
    (h : s.validateAndCommitWithKeys txnId readTs commitTs writtenKeys = (.error e, s')) :
    s' = s ∨ ∃ rw inbound outbound, s.activeTxns.lookup txnId = some rw ∧
      s' = { s with
        activeTxns := s.activeTxns.insert txnId
          { rw with inboundConflicts := inbound, outboundConflicts := outbound } } := by
  cases hactive : s.activeTxns.lookup txnId with
  | none =>
      rw [validateAndCommitWithKeys, hactive] at h
      exact Or.inl (Prod.mk.inj h).2.symm
  | some rw =>
      obtain ⟨outbound, heq⟩ := validate_error_of_active hactive h
      exact Or.inr ⟨rw, _, outbound, rfl, heq⟩

/-- An accepted transaction had no conflict, and its set is published. -/
theorem validate_ok {s s' : SSIManager} {txnId readTs commitTs : ℕ} {writtenKeys : List Bytes}
    (h : s.validateAndCommitWithKeys txnId readTs commitTs writtenKeys = (.ok (), s')) :
    ∃ rw outbound, s.activeTxns.lookup txnId = some rw ∧
      s.findInboundConflicts rw txnId readTs commitTs = [] ∧
      s' = publish
        { s with
          activeTxns := s.activeTxns.insert txnId { rw with outboundConflicts := outbound } }
        { rw with outboundConflicts := outbound } txnId readTs commitTs writtenKeys := by
  rw [validateAndCommitWithKeys] at h
  cases hactive : s.activeTxns.lookup txnId with
  | none =>
      rw [hactive] at h
      exact absurd (Prod.mk.inj h).1 (by simp)
  | some rw =>
      rw [hactive] at h
      obtain ⟨outbound, hrw⟩ := s.checkConflicts_snd rw txnId readTs commitTs
      simp only at h
      split at h
      · exact absurd (Prod.mk.inj h).1 (by simp)
      · next hchecked =>
          obtain ⟨hbefore, hfound⟩ := checkConflicts_ok hchecked
          rw [hbefore, hfound] at hrw
          have hset : (s.checkConflicts rw txnId readTs commitTs).2 =
              { rw with outboundConflicts := outbound } := by
            rw [hrw, List.append_nil, ← hbefore]
          refine ⟨rw, outbound, rfl, hfound, ?_⟩
          rw [← (Prod.mk.inj h).2, hset]

/-- Exactly when an active transaction is accepted. -/
theorem validate_ok_iff {s : SSIManager} {txnId readTs commitTs : ℕ} {writtenKeys : List Bytes}
    {rw : ReadWriteSet} (hactive : s.activeTxns.lookup txnId = some rw) :
    (s.validateAndCommitWithKeys txnId readTs commitTs writtenKeys).1 = .ok () ↔
      rw.inboundConflicts = [] ∧ s.findInboundConflicts rw txnId readTs commitTs = [] ∧
        ¬ s.FindsPhantom rw readTs commitTs := by
  have hchecks : (s.validateAndCommitWithKeys txnId readTs commitTs writtenKeys).1 =
      (s.checkConflicts rw txnId readTs commitTs).1 := by
    rw [validateAndCommitWithKeys, hactive]
    simp only
    split
    · next hchecked => exact hchecked.symm
    · next hchecked => exact hchecked.symm
  have hphantom := checkCommitted_ok_iff txnId readTs commitTs s.committedTxns.entries
    (rw.addInboundConflicts (s.findInboundConflicts rw txnId readTs commitTs))
  have hnone : (∀ e ∈ s.committedTxns.entries, readTs < e.1 → e.1 < commitTs →
      (e.2.writeKeys.any fun key => keyInRanges key rw.readRanges) = false) ↔
      ¬ s.FindsPhantom rw readTs commitTs := by
    constructor
    · rintro h ⟨ts, txn, hlookup, hread, hcommit, key, hkey, hin⟩
      have hany := h ⟨ts, txn⟩ (AList.mem_lookup_iff.mp hlookup) hread hcommit
      rw [List.any_eq_false] at hany
      exact hany key hkey hin
    · intro h e he hread hcommit
      rw [List.any_eq_false]
      intro key hkey hin
      exact h ⟨e.1, e.2, AList.mem_lookup_iff.mpr he, hread, hcommit, key, hkey, hin⟩
  obtain ⟨outbound, hsnd⟩ := checkCommitted_snd txnId readTs commitTs s.committedTxns.entries
    (rw.addInboundConflicts (s.findInboundConflicts rw txnId readTs commitTs))
  have hverdict := ReadWriteSet.verdict_eq_ok_iff (checkCommitted txnId readTs commitTs
    s.committedTxns.entries
    (rw.addInboundConflicts (s.findInboundConflicts rw txnId readTs commitTs))).2
  -- the conflicts noted before and those found now must both be none
  rw [hchecks, ← hnone, ← and_assoc, ← List.append_eq_nil_iff]
  rw [checkConflicts]
  split
  · next hchecked =>
      rw [hchecked] at hphantom
      constructor
      · intro h
        contradiction
      · intro h
        exact hphantom.mpr h.2
  · next hchecked =>
      rw [hchecked] at hphantom hverdict hsnd
      rw [hverdict, hsnd]
      exact ⟨fun h => ⟨h, hphantom.mp rfl⟩, And.left⟩

/-! ## The write index -/

/-- The entries of a key in the write index. -/
def writersOf (s : SSIManager) (hash : UInt64) : List WriteIndexEntry :=
  (s.writeIndex.lookup hash).getD []

theorem findInboundConflicts_eq_nil_iff {s : SSIManager} {rw : ReadWriteSet}
    {txnId readTs commitTs : ℕ} : s.findInboundConflicts rw txnId readTs commitTs = [] ↔
      ∀ hash ∈ rw.readKeys, ∀ entry ∈ s.writersOf hash,
        ¬ (readTs < entry.commitTs ∧ entry.startTs < commitTs) := by
  unfold findInboundConflicts writersOf
  rw [List.flatMap_eq_nil_iff]
  refine forall₂_congr fun hash _ => ?_
  rw [List.filterMap_eq_nil_iff]
  refine forall₂_congr fun entry _ => ?_
  split
  · next hboth => simp [hboth]
  · next hnot => simp [hnot]

private theorem lookup_foldl_push (entry : WriteIndexEntry) (hashes : List UInt64)
    (index : HashMap UInt64 (List WriteIndexEntry)) (hash : UInt64) :
    ((hashes.foldl (fun index hash =>
      index.insert hash ((index.lookup hash).getD [] ++ [entry])) index).lookup hash).getD [] =
      (index.lookup hash).getD [] ++ List.replicate (hashes.count hash) entry := by
  induction hashes generalizing index with
  | nil => simp
  | cons first rest ih =>
      rw [List.foldl_cons, ih]
      by_cases hfirst : hash = first
      · subst hfirst
        rw [AList.lookup_insert, Option.getD_some, List.count_cons_self, List.append_assoc,
          List.replicate_succ]
        rfl
      · rw [AList.lookup_insert_ne hfirst, List.count_cons_of_ne (Ne.symm hfirst)]

/-- Publishing appends the transaction to the entries of the keys it wrote. -/
theorem writersOf_publish (s : SSIManager) (rw : ReadWriteSet) (txnId readTs commitTs : ℕ)
    (writtenKeys : List Bytes) (hash : UInt64) :
    (s.publish rw txnId readTs commitTs writtenKeys).writersOf hash =
      s.writersOf hash ++ List.replicate (rw.writeKeys.count hash)
        ⟨commitTs, (s.activeStartTs.lookup txnId).getD readTs⟩ :=
  lookup_foldl_push _ _ _ _

theorem writersOf_advanceWatermark (s : SSIManager) (newWatermark : ℕ) (hash : UInt64) :
    (s.advanceWatermark newWatermark).writersOf hash =
      if s.watermark < newWatermark then
        (s.writersOf hash).filter fun entry => newWatermark ≤ entry.commitTs
      else s.writersOf hash := by
  unfold advanceWatermark
  split
  · unfold writersOf
    simp only [lookup_retain]
    cases s.writeIndex.lookup hash with
    | none => rfl
    | some entries =>
        simp only [Option.bind_some, Option.getD_some]
        split
        · next hempty => exact (List.isEmpty_iff.mp hempty).symm
        · rfl
  · rfl

end SSIManager
end Crabstash

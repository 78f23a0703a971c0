import Crabstash.Lock.SsiCalls

/-!
# Which transactions are accepted

The verdict on a transaction comes out of the write index, the map of committed
transactions, the conflicts that are kept in its set, and four exits in a row.  What it
amounts to can be said about the history: a transaction that has not failed before is
accepted exactly if no accepted transaction that overlaps with it has written a hash that
it has read, and none that committed in between has supplied a key in a range that it has
read (`accepts_iff`).

The first part rests on `Indexed`: index and map have an entry for each accepted
transaction and nothing else.  That is so as long as no two of them have the same commit
timestamp, since the map is keyed by it, and the watermark stays where it is.

The ranges protect from phantoms only where keys are supplied.  `validate_and_commit`
supplies none, so a write into a range that was read goes unnoticed unless the transaction
has other conflicts (`protectsRanges_iff`).
-/

namespace Crabstash
namespace SsiHistory

variable (hashKey : Bytes → UInt64)

/-- An accepted transaction that overlaps has written a hash that was read. -/
def Overwrites (t : ActiveTxn) (readTs commitTs : ℕ) (w : AcceptedTxn) : Prop :=
  readTs < w.commitTs ∧ w.startTs < commitTs ∧
    ∃ key ∈ w.writes, ∃ key' ∈ t.reads, hashKey key = hashKey key'

/-- An accepted transaction that committed in between has supplied a key in a range that
was read. -/
def Intrudes (t : ActiveTxn) (readTs commitTs : ℕ) (w : AcceptedTxn) : Prop :=
  readTs < w.commitTs ∧ w.commitTs < commitTs ∧ ∃ key ∈ w.writtenKeys, keyInRanges key t.ranges

/-- The commit timestamps are different, and nothing is pruned. -/
def ReadyCall (h : SsiHistory) : SsiCall → Prop
  | .validateAndCommitWithKeys _ _ commitTs _ => ∀ w ∈ h.accepted, w.commitTs ≠ commitTs
  | .advanceWatermark _ => False
  | _ => True

/-! ## The index and the map -/

/-- The index and the map have the accepted transactions in them. -/
structure Indexed (h : SsiHistory) : Prop where
  writers : ∀ hash entry, entry ∈ h.manager.writersOf hash ↔
    ∃ w ∈ h.accepted, entry = ⟨w.commitTs, w.startTs⟩ ∧ ∃ key ∈ w.writes, hashKey key = hash
  supplied : ∀ w ∈ h.accepted, ∃ txn,
    h.manager.committedTxns.lookup w.commitTs = some txn ∧ txn.writeKeys = w.writtenKeys
  committed : ∀ ts txn, h.manager.committedTxns.lookup ts = some txn →
    ∃ w ∈ h.accepted, w.commitTs = ts ∧ txn.writeKeys = w.writtenKeys

variable {hashKey}

theorem indexed_init : Indexed hashKey init where
  writers := by
    intro hash entry
    constructor
    · intro hmem
      exact absurd hmem List.not_mem_nil
    · rintro ⟨w, hw, _⟩
      exact absurd hw List.not_mem_nil
  supplied := fun w hw => absurd hw List.not_mem_nil
  committed := fun ts txn hlookup => by contradiction

/-- A step that is not an accepted validation. -/
theorem Indexed.of_same {h h' : SsiHistory} (hindexed : Indexed hashKey h)
    (hindex : h'.manager.writeIndex = h.manager.writeIndex)
    (hcommitted : h'.manager.committedTxns = h.manager.committedTxns)
    (haccepted : h'.accepted = h.accepted) : Indexed hashKey h' where
  writers := by
    intro hash entry
    rw [haccepted, SSIManager.writersOf, hindex]
    exact hindexed.writers hash entry
  supplied := by
    rw [haccepted, hcommitted]
    exact hindexed.supplied
  committed := by
    rw [haccepted, hcommitted]
    exact hindexed.committed

/-- The entries of an accepted transaction come in. -/
theorem Indexed.publish {h h' : SsiHistory} (hindexed : Indexed hashKey h)
    {s : SSIManager} {rw : ReadWriteSet} {t : ActiveTxn} {txnId readTs commitTs : ℕ}
    {writtenKeys : List Bytes} (hkept : Keeps hashKey rw t)
    (hs : h.manager.SameCommits s) (hstart : s.activeStartTs.lookup txnId = t.startTs)
    (hnew : ∀ w ∈ h.accepted, w.commitTs ≠ commitTs)
    (hmanager : h'.manager = s.publish rw txnId readTs commitTs writtenKeys)
    (haccepted : h'.accepted =
      ⟨txnId, t.startTs.getD readTs, commitTs, t.writes, writtenKeys⟩ :: h.accepted) :
    Indexed hashKey h' where
  writers := by
    intro hash entry
    -- up to here the commits are still those of the manager
    have hwriters : s.writersOf hash = h.manager.writersOf hash := by
      rw [SSIManager.writersOf, SSIManager.writersOf, hs.writeIndex]
    rw [hmanager, SSIManager.writersOf_publish, hstart, hwriters, haccepted, List.mem_append,
      hindexed.writers, List.mem_replicate, ← Nat.pos_iff_ne_zero, List.count_pos_iff,
      hkept.writes]
    simp only [List.mem_cons, exists_eq_or_imp]
    exact or_comm.trans (or_congr and_comm Iff.rfl)
  supplied := by
    intro w hw
    rw [hmanager]
    show ∃ txn, (s.committedTxns.insert commitTs _).lookup w.commitTs = some txn ∧ _
    rw [haccepted, List.mem_cons] at hw
    -- the timestamp is new, so no older record is replaced
    rcases hw with rfl | hw
    · exact ⟨_, AList.lookup_insert _, rfl⟩
    · rw [AList.lookup_insert_ne (hnew w hw), hs.committedTxns]
      exact hindexed.supplied w hw
  committed := by
    intro ts txn hlookup
    rw [hmanager] at hlookup
    have hlookup : (s.committedTxns.insert commitTs _).lookup ts = some txn := hlookup
    by_cases heq : ts = commitTs
    · subst heq
      rw [AList.lookup_insert] at hlookup
      rw [haccepted, ← Option.some.inj hlookup]
      exact ⟨_, List.mem_cons_self, rfl, rfl⟩
    · rw [AList.lookup_insert_ne heq, hs.committedTxns] at hlookup
      obtain ⟨w, hw, hts, hkeys⟩ := hindexed.committed ts txn hlookup
      rw [haccepted]
      exact ⟨w, List.mem_cons_of_mem _ hw, hts, hkeys⟩

theorem Indexed.validate {h : SsiHistory} (hindexed : Indexed hashKey h)
    (htracked : Tracked hashKey h) (txnId readTs commitTs : ℕ) (writtenKeys : List Bytes)
    (hnew : ∀ w ∈ h.accepted, w.commitTs ≠ commitTs) :
    Indexed hashKey
      (h.step hashKey (.validateAndCommitWithKeys txnId readTs commitTs writtenKeys)) := by
  obtain ⟨manager, hsnd, hcases⟩ := h.manager.validate_cases txnId readTs commitTs writtenKeys
  have hmanager : (h.step hashKey
      (.validateAndCommitWithKeys txnId readTs commitTs writtenKeys)).manager = manager := hsnd
  rcases hcases with ⟨hresult, haccepts⟩ | ⟨e, hresult, hrejected⟩
  · obtain ⟨rw, outbound, hrw, _, hpublished⟩ := SSIManager.validate_ok hresult
    obtain ⟨t, ht, hkept⟩ := htracked.exists_of_activeTxns hrw
    have hkept' : Keeps hashKey { rw with outboundConflicts := outbound } t :=
      ⟨hkept.reads, hkept.writes, hkept.ranges, hkept.unharmed⟩
    refine hindexed.publish hkept' ?_ ?_ hnew (hmanager.trans hpublished) ?_
    · exact ⟨rfl, rfl, rfl, rfl⟩
    · exact htracked.startTs txnId t ht
    · simp [SsiHistory.step, note, haccepts, accept, ht]
  · have haccepted : (h.step hashKey
        (.validateAndCommitWithKeys txnId readTs commitTs writtenKeys)).accepted =
        h.accepted := by
      simp [SsiHistory.step, note, hrejected, amend]
    rcases SSIManager.validate_error hresult with rfl | ⟨rw, _, _, _, rfl⟩
    · exact hindexed.of_same (by rw [hmanager]) (by rw [hmanager]) haccepted
    · exact hindexed.of_same (by rw [hmanager]) (by rw [hmanager]) haccepted

theorem Indexed.step {h : SsiHistory} (hindexed : Indexed hashKey h)
    (htracked : Tracked hashKey h) {call : SsiCall} (hready : h.ReadyCall call) :
    Indexed hashKey (h.step hashKey call) := by
  cases call with
  | validateAndCommitWithKeys txnId readTs commitTs writtenKeys =>
      exact hindexed.validate htracked txnId readTs commitTs writtenKeys hready
  | advanceWatermark newWatermark => exact hready.elim
  | recordRead txnId key =>
      have hsame := SSIManager.sameCommits_recordRead hashKey h.manager txnId key
      exact hindexed.of_same hsame.writeIndex hsame.committedTxns rfl
  | recordWrite txnId key =>
      have hsame := SSIManager.sameCommits_recordWrite hashKey h.manager txnId key
      exact hindexed.of_same hsame.writeIndex hsame.committedTxns rfl
  | recordRangeRead txnId start last =>
      have hsame := SSIManager.sameCommits_recordRangeRead h.manager txnId start last
      exact hindexed.of_same hsame.writeIndex hsame.committedTxns rfl
  | beginTxnWithTs txnId startTs => exact hindexed.of_same rfl rfl rfl
  | beginReadOnlyTxn txnId startTs => exact hindexed.of_same rfl rfl rfl
  | abortTxn txnId => exact hindexed.of_same rfl rfl rfl
  | commitReadOnlyTxn txnId => exact hindexed.of_same rfl rfl rfl

theorem tracked_run (calls : List SsiCall) :
    Tracked hashKey (Run.run (step hashKey) init calls) :=
  Run.invariant (Tracked hashKey) (fun _ call htracked => htracked.step call) tracked_init calls

/-! ## The verdict -/

/-- In every run with different commit timestamps and without pruning, a transaction whose
validations have not failed is accepted exactly if no accepted transaction overwrites what
it has read, and none intrudes into a range that it has read. -/
theorem accepts_iff (calls : List SsiCall)
    (hcalls : Run.Along (step hashKey) ReadyCall init calls) {txnId : ℕ} {t : ActiveTxn}
    (hactive : (Run.run (step hashKey) init calls).active.lookup txnId = some t)
    (hfirst : t.failed = false) (readTs commitTs : ℕ) (writtenKeys : List Bytes) :
    (Run.run (step hashKey) init calls).manager.accepts txnId readTs commitTs writtenKeys = true ↔
      (∀ w ∈ (Run.run (step hashKey) init calls).accepted,
        ¬ Overwrites hashKey t readTs commitTs w) ∧
      ∀ w ∈ (Run.run (step hashKey) init calls).accepted, ¬ Intrudes t readTs commitTs w := by
  have hinv : Tracked hashKey (Run.run (step hashKey) init calls) ∧
      Indexed hashKey (Run.run (step hashKey) init calls) :=
    hcalls.invariant (fun h => Tracked hashKey h ∧ Indexed hashKey h)
      (fun h call hinv hready => ⟨hinv.1.step call, hinv.2.step hinv.1 hready⟩)
      ⟨tracked_init, indexed_init⟩
  generalize Run.run (step hashKey) init calls = h at hactive hinv ⊢
  obtain ⟨htracked, hindexed⟩ := hinv
  obtain ⟨rw, hrw, hkept⟩ := htracked.exists_of_active hactive
  -- the write index finds what has overwritten a read, and only that
  have hfound : h.manager.findInboundConflicts rw txnId readTs commitTs = [] ↔
      ∀ w ∈ h.accepted, ¬ Overwrites hashKey t readTs commitTs w := by
    rw [SSIManager.findInboundConflicts_eq_nil_iff]
    constructor
    · rintro hnone w hw ⟨hread, hcommit, key, hkey, key', hkey', heq⟩
      apply hnone (hashKey key') ((hkept.reads _).mpr ⟨key', hkey', rfl⟩) ⟨w.commitTs, w.startTs⟩
      · exact (hindexed.writers _ _).mpr ⟨w, hw, rfl, key, hkey, heq⟩
      · exact ⟨hread, hcommit⟩
    · rintro hnone hash hhash entry hentry ⟨hread, hcommit⟩
      obtain ⟨w, hw, rfl, key, hkey, heq⟩ := (hindexed.writers _ _).mp hentry
      obtain ⟨key', hkey', heq'⟩ := (hkept.reads _).mp hhash
      exact hnone w hw ⟨hread, hcommit, key, hkey, key', hkey', heq.trans heq'.symm⟩
  -- the keys supplied by the accepted ones are all that is looked up for ranges
  have hphantom : ¬ h.manager.FindsPhantom rw readTs commitTs ↔
      ∀ w ∈ h.accepted, ¬ Intrudes t readTs commitTs w := by
    constructor
    · rintro hnone w hw ⟨hread, hcommit, key, hkey, hin⟩
      obtain ⟨txn, hlookup, hkeys⟩ := hindexed.supplied w hw
      apply hnone
      refine ⟨w.commitTs, txn, hlookup, hread, hcommit, key, ?_, ?_⟩
      · rw [hkeys]
        exact hkey
      · rw [hkept.ranges]
        exact hin
    · rintro hnone ⟨ts, txn, hlookup, hread, hcommit, key, hkey, hin⟩
      obtain ⟨w, hw, rfl, hkeys⟩ := hindexed.committed ts txn hlookup
      rw [hkeys] at hkey
      rw [hkept.ranges] at hin
      exact hnone w hw ⟨hread, hcommit, key, hkey, hin⟩
  rw [SSIManager.accepts_eq_true_iff, SSIManager.validate_ok_iff hrw, hfound, hphantom]
  exact ⟨And.right, fun h => ⟨hkept.unharmed hfirst, h⟩⟩

instance (h : SsiHistory) (call : SsiCall) : Decidable (h.ReadyCall call) :=
  match call with
  | .validateAndCommitWithKeys _ _ _ _ => inferInstanceAs (Decidable (∀ _ ∈ _, _))
  | .advanceWatermark _ => inferInstanceAs (Decidable False)
  | .beginTxnWithTs _ _ => inferInstanceAs (Decidable True)
  | .beginReadOnlyTxn _ _ => inferInstanceAs (Decidable True)
  | .recordRead _ _ => inferInstanceAs (Decidable True)
  | .recordWrite _ _ => inferInstanceAs (Decidable True)
  | .recordRangeRead _ _ _ => inferInstanceAs (Decidable True)
  | .abortTxn _ => inferInstanceAs (Decidable True)
  | .commitReadOnlyTxn _ => inferInstanceAs (Decidable True)

/-- The runs of the examples, with the first byte of a key as its hash. -/
def runOf (calls : List SsiCall) : SsiHistory :=
  Run.run (step fun key => (key.headD 0).toUInt64) init calls

/-- One transaction has written a key, another has supplied one, and a third has read. -/
def twoWriters : List SsiCall :=
  [.beginTxnWithTs 1 1, .beginTxnWithTs 2 2, .beginTxnWithTs 3 3, .recordWrite 1 [5],
    .recordRead 3 [6], .recordRangeRead 3 (.included [1]) (.excluded [4]),
    .validateAndCommit 1 1 4, .recordWrite 2 [7], .validateAndCommitWithKeys 2 2 5 [[7]]]

/-- The reader is accepted, and would not be if it had read the key `[5, 1]` as well: its hash is
that of the key written. -/
theorem accepts_iff_twoWriters :
    (runOf twoWriters).manager.accepts 3 3 6 [] = true ∧
      ¬ (runOf (twoWriters ++ [.recordRead 3 [5, 1]])).manager.accepts 3 3 6 [] = true := by
  constructor
  · refine (accepts_iff twoWriters (by decide) (t := ⟨some 3, [[6]], [],
      [(.included [1], .excluded [4])], false⟩) (by decide) rfl 3 6 []).mpr ⟨?_, ?_⟩
    · unfold Overwrites
      decide
    · unfold Intrudes
      decide
  · intro haccepts
    have hready : Run.Along (step fun key => (key.headD 0).toUInt64) ReadyCall init
        (twoWriters ++ [.recordRead 3 [5, 1]]) := by decide
    have hnone := ((accepts_iff _ hready
      (t := ⟨some 3, [[5, 1], [6]], [], [(.included [1], .excluded [4])], false⟩)
      (by decide) rfl 3 6 []).mp haccepts).1
    refine absurd hnone ?_
    unfold Overwrites
    decide

/-! ## Ranges -/

/-- Another transaction, accepted by `validate_and_commit` in between, has written a key in a
range that was read. -/
def WritesInto (t : ActiveTxn) (txnId readTs commitTs : ℕ) (w : AcceptedTxn) : Prop :=
  w.txnId ≠ txnId ∧ w.writtenKeys = [] ∧ readTs < w.commitTs ∧ w.commitTs < commitTs ∧
    ∃ key ∈ w.writes, keyInRanges key t.ranges

/-- A transaction with such a write in its ranges is rejected. -/
def ProtectsRanges (h : SsiHistory) (txnId readTs commitTs : ℕ) : Prop :=
  ∀ t, h.active.lookup txnId = some t →
    (∃ w ∈ h.accepted, WritesInto t txnId readTs commitTs w) →
      h.manager.accepts txnId readTs commitTs [] = false

/-- The set of the transaction has an inbound conflict in it, or the write index has a writer
that overlaps for a hash it has read, or a key was supplied for one of its ranges. -/
def Suspected (h : SsiHistory) (txnId readTs commitTs : ℕ) : Prop :=
  ∃ rw, h.manager.activeTxns.lookup txnId = some rw ∧
    (rw.inboundConflicts ≠ [] ∨
      (∃ hash ∈ rw.readKeys, ∃ entry ∈ h.manager.writersOf hash,
        readTs < entry.commitTs ∧ entry.startTs < commitTs) ∨
      h.manager.FindsPhantom rw readTs commitTs)

/-- After every run, a transaction that has read a range is protected from writes into it
exactly if something else gives it away. -/
theorem protectsRanges_iff (calls : List SsiCall) (txnId readTs commitTs : ℕ) :
    (Run.run (step hashKey) init calls).ProtectsRanges txnId readTs commitTs ↔
      ∀ t, (Run.run (step hashKey) init calls).active.lookup txnId = some t →
        (∃ w ∈ (Run.run (step hashKey) init calls).accepted,
          WritesInto t txnId readTs commitTs w) →
        (Run.run (step hashKey) init calls).Suspected txnId readTs commitTs := by
  have htracked : Tracked hashKey (Run.run (step hashKey) init calls) := tracked_run calls
  generalize Run.run (step hashKey) init calls = h at htracked ⊢
  refine forall₂_congr fun t ht => imp_congr Iff.rfl ?_
  obtain ⟨rw, hrw, _⟩ := htracked.exists_of_active ht
  have hsuspected : h.Suspected txnId readTs commitTs ↔ ¬ (rw.inboundConflicts = [] ∧
      h.manager.findInboundConflicts rw txnId readTs commitTs = [] ∧
      ¬ h.manager.FindsPhantom rw readTs commitTs) := by
    rw [SSIManager.findInboundConflicts_eq_nil_iff]
    unfold Suspected
    rw [hrw]
    simp only [Option.some.injEq, exists_eq_left', not_and_or, not_not]
    push Not
    rfl
  have haccepts : h.manager.accepts txnId readTs commitTs [] = true ↔ _ :=
    SSIManager.accepts_eq_true_iff.trans (SSIManager.validate_ok_iff hrw)
  rw [hsuspected, ← haccepts, Bool.not_eq_true]

/-- A range is read, another transaction writes a key in it and is accepted, and so is the
reader. -/
theorem not_protectsRanges : ¬ (runOf [.beginTxnWithTs 1 1,
    .recordRangeRead 1 (.included [1]) (.excluded [9]), .beginTxnWithTs 2 2, .recordWrite 2 [5],
    .validateAndCommit 2 2 3]).ProtectsRanges 1 1 4 := by
  intro hprotects
  have hrejected := hprotects ⟨some 1, [], [], [(.included [1], .excluded [9])], false⟩
    (by decide) ⟨⟨2, 2, 3, [[5]], []⟩, by decide, by decide, rfl, by decide, by decide, [5],
      by decide, by decide⟩
  exact absurd hrejected (by decide)

end SsiHistory
end Crabstash

import Mathlib.Order.Bounds.Basic
import Crabstash.Lock.SsiCalls

/-!
# The bookkeeping of an `SSIManager`

Four maps and two counters that eight methods keep in step: the sets of the active transactions,
the start timestamps of these and of the read-only ones, the read-only ids, the number of active
writers and the safe snapshot.

A transaction counts as a writer from its first write until it leaves the active ones, by an
accepted validation or by `abort_txn`.  A rejected validation leaves it there with what it wrote,
and a second abort, or an abort after a commit, finds it no longer active.  So the counter is the
number of active transactions that have written (`Balanced.writers`), and every decrement finds it
positive (`Balanced.positive`).

Ids are fresh when they begin, and only an id that began read-only is committed as such.  This is
noted beside the manager (`SsiBook`), with whether the safe snapshot has ever been computed.
-/

namespace Crabstash

open Run

/-! ## The book -/

/-- A manager, and what has been asked of it: the ids that have begun, those of them that began
read-only, and whether there has been a begin, an accepted commit or an abort. -/
structure SsiBook where
  manager : SSIManager
  begun : List ℕ
  begunReadOnly : List ℕ
  settled : Bool

/-- The transaction has a write set. -/
def ReadWriteSet.hasWrites (rw : ReadWriteSet) : Bool := !rw.writeKeys.isEmpty

namespace SsiBook

/-- A new manager, before any call. -/
def init : SsiBook := { manager := SSIManager.new, begun := [], begunReadOnly := [], settled := false }

/-- What a call adds to the notes. -/
def note (b : SsiBook) : SsiCall → SsiBook
  | .beginTxnWithTs txnId _ => { b with begun := txnId :: b.begun, settled := true }
  | .beginReadOnlyTxn txnId _ =>
      { b with
        begun := txnId :: b.begun
        begunReadOnly := txnId :: b.begunReadOnly
        settled := true }
  | .validateAndCommitWithKeys txnId readTs commitTs writtenKeys =>
      { b with settled := b.settled || b.manager.accepts txnId readTs commitTs writtenKeys }
  | .abortTxn _ => { b with settled := true }
  | _ => b

/-- Ids are fresh when they begin, and only what began read-only is committed as read-only. -/
def Proper (b : SsiBook) : SsiCall → Prop
  | .beginTxnWithTs txnId _ => txnId ∉ b.begun
  | .beginReadOnlyTxn txnId _ => txnId ∉ b.begun
  | .commitReadOnlyTxn txnId => txnId ∈ b.begunReadOnly
  | _ => True

instance (b : SsiBook) : (call : SsiCall) → Decidable (b.Proper call)
  | .beginTxnWithTs txnId _ => inferInstanceAs (Decidable (txnId ∉ b.begun))
  | .beginReadOnlyTxn txnId _ => inferInstanceAs (Decidable (txnId ∉ b.begun))
  | .commitReadOnlyTxn txnId => inferInstanceAs (Decidable (txnId ∈ b.begunReadOnly))
  | .recordRead .. => isTrue trivial
  | .recordWrite .. => isTrue trivial
  | .recordRangeRead .. => isTrue trivial
  | .validateAndCommitWithKeys .. => isTrue trivial
  | .abortTxn _ => isTrue trivial
  | .advanceWatermark _ => isTrue trivial

variable (hashKey : Bytes → UInt64)

/-- The manager after the call, with what the book notes of it. -/
def step (b : SsiBook) (call : SsiCall) : SsiBook :=
  { b.note call with manager := b.manager.call hashKey call }

/-- The maps and counters fit together. -/
structure Balanced (b : SsiBook) : Prop where
  writers : b.manager.activeWriters = b.manager.activeTxns.countWhere ReadWriteSet.hasWrites
  positive : ∀ txnId rw, b.manager.activeTxns.lookup txnId = some rw → rw.hasWrites = true →
    0 < b.manager.activeWriters
  started : ∀ txnId, txnId ∈ b.manager.activeStartTs ↔
    txnId ∈ b.manager.activeTxns ∨ txnId ∈ b.manager.readOnlyTxns
  least : b.settled = true → (∃ txnId, txnId ∈ b.manager.activeStartTs) →
    IsLeast {startTs | ∃ txnId, b.manager.activeStartTs.lookup txnId = some startTs}
      b.manager.safeSnapshot
  none : b.settled = true → (∀ txnId, txnId ∉ b.manager.activeStartTs) →
    b.manager.safeSnapshot = 2 ^ 64 - 1

/-- What every call keeps. -/
structure Kept (b : SsiBook) : Prop where
  writers : b.manager.activeWriters = b.manager.activeTxns.countWhere ReadWriteSet.hasWrites
  started : ∀ txnId, txnId ∈ b.manager.activeStartTs ↔
    txnId ∈ b.manager.activeTxns ∨ txnId ∈ b.manager.readOnlyTxns
  active : ∀ txnId ∈ b.manager.activeTxns, txnId ∈ b.begun ∧ txnId ∉ b.begunReadOnly
  readOnly : ∀ txnId ∈ b.manager.readOnlyTxns, txnId ∈ b.begunReadOnly
  begunReadOnly : ∀ txnId ∈ b.begunReadOnly, txnId ∈ b.begun
  safe : b.settled = true → b.manager.safeSnapshot = b.manager.updateSafeSnapshot.safeSnapshot

variable {hashKey}

theorem kept_init : Kept init where
  writers := rfl
  started := by
    intro txnId
    exact iff_of_false (AList.notMem_empty _) (by simp [init, SSIManager.new])
  active := by
    intro txnId h
    exact absurd h (AList.notMem_empty _)
  readOnly := by
    intro txnId h
    exact absurd h (AList.notMem_empty _)
  begunReadOnly := by
    intro txnId h
    exact absurd h List.not_mem_nil
  safe := by
    intro h
    contradiction

namespace Kept

variable {b : SsiBook}

theorem mem_active {txnId : ℕ} {rw : ReadWriteSet}
    (h : b.manager.activeTxns.lookup txnId = some rw) : txnId ∈ b.manager.activeTxns := by
  rw [← AList.lookup_isSome, h]
  rfl

/-! ## Begins -/

theorem beginTxnWithTs (h : Kept b) {txnId : ℕ} (hfresh : txnId ∉ b.begun) (startTs : ℕ) :
    Kept (b.step hashKey (.beginTxnWithTs txnId startTs)) where
  writers := by
    have hnot : b.manager.activeTxns.lookup txnId = Option.none := by
      rw [AList.lookup_eq_none]
      exact fun hmem => hfresh (h.active txnId hmem).1
    have herase := countWhere_erase b.manager.activeTxns txnId ReadWriteSet.hasWrites
    rw [hnot, Option.any_none, if_neg Bool.false_ne_true, Nat.add_zero] at herase
    show b.manager.activeWriters = HashMap.countWhere (b.manager.activeTxns.insert txnId
      ReadWriteSet.new) ReadWriteSet.hasWrites
    rw [countWhere_insert, herase, h.writers]
    rfl
  started := by
    intro id
    show id ∈ b.manager.activeStartTs.insert txnId startTs ↔
      id ∈ b.manager.activeTxns.insert txnId ReadWriteSet.new ∨ id ∈ b.manager.readOnlyTxns
    rw [AList.mem_insert, AList.mem_insert, h.started, or_assoc]
  active := by
    intro id hid
    have hid : id ∈ b.manager.activeTxns.insert txnId ReadWriteSet.new := hid
    rcases AList.mem_insert _ |>.mp hid with rfl | hid
    · exact ⟨List.mem_cons_self .., fun hread => hfresh (h.begunReadOnly id hread)⟩
    · exact ⟨List.mem_cons_of_mem _ (h.active id hid).1, (h.active id hid).2⟩
  readOnly := h.readOnly
  begunReadOnly := fun id hid => List.mem_cons_of_mem _ (h.begunReadOnly id hid)
  safe := fun _ => rfl

theorem beginReadOnlyTxn (h : Kept b) {txnId : ℕ} (hfresh : txnId ∉ b.begun) (startTs : ℕ) :
    Kept (b.step hashKey (.beginReadOnlyTxn txnId startTs)) where
  writers := h.writers
  started := by
    intro id
    show id ∈ b.manager.activeStartTs.insert txnId startTs ↔
      id ∈ b.manager.activeTxns ∨ id ∈ b.manager.readOnlyTxns.insert txnId true
    rw [AList.mem_insert, AList.mem_insert, h.started, or_left_comm]
  active := by
    intro id hid
    obtain ⟨hbegun, hread⟩ := h.active id hid
    refine ⟨List.mem_cons_of_mem _ hbegun, ?_⟩
    intro hmem
    rcases List.mem_cons.mp hmem with rfl | hmem
    · exact hfresh hbegun
    · exact hread hmem
  readOnly := by
    intro id hid
    have hid : id ∈ b.manager.readOnlyTxns.insert txnId true := hid
    rcases AList.mem_insert _ |>.mp hid with rfl | hid
    · exact List.mem_cons_self ..
    · exact List.mem_cons_of_mem _ (h.readOnly id hid)
  begunReadOnly := by
    intro id hid
    rcases List.mem_cons.mp hid with rfl | hid
    · exact List.mem_cons_self ..
    · exact List.mem_cons_of_mem _ (h.begunReadOnly id hid)
  safe := fun _ => rfl

/-! ## Records and rejections -/

/-- The set of an active transaction changes, and the counter with it. -/
theorem amend (h : Kept b) {txnId : ℕ} {rw : ReadWriteSet}
    (hactive : b.manager.activeTxns.lookup txnId = some rw) (rw' : ReadWriteSet) {writers : ℕ}
    (hwriters : writers = HashMap.countWhere (b.manager.activeTxns.insert txnId rw')
      ReadWriteSet.hasWrites) :
    Kept { b with
      manager :=
        { b.manager with
          activeTxns := b.manager.activeTxns.insert txnId rw'
          activeWriters := writers } } where
  writers := hwriters
  started := by
    intro id
    show id ∈ b.manager.activeStartTs ↔
      id ∈ b.manager.activeTxns.insert txnId rw' ∨ id ∈ b.manager.readOnlyTxns
    rw [h.started, AList.mem_insert]
    refine or_congr_left ⟨Or.inr, ?_⟩
    rintro (rfl | hid)
    · exact mem_active hactive
    · exact hid
  active := by
    intro id hid
    have hid : id ∈ b.manager.activeTxns.insert txnId rw' := hid
    rcases AList.mem_insert _ |>.mp hid with rfl | hid
    · exact h.active id (mem_active hactive)
    · exact h.active id hid
  readOnly := h.readOnly
  begunReadOnly := h.begunReadOnly
  safe := h.safe

/-- A change of the set that leaves what was written. -/
theorem amend_of_same (h : Kept b) {txnId : ℕ} {rw rw' : ReadWriteSet}
    (hactive : b.manager.activeTxns.lookup txnId = some rw)
    (hsame : rw'.hasWrites = rw.hasWrites) :
    Kept { b with
      manager :=
        { b.manager with activeTxns := b.manager.activeTxns.insert txnId rw' } } := by
  refine h.amend hactive rw' ?_
  rw [countWhere_insert_of_same hactive hsame]
  exact h.writers

theorem recordRead (h : Kept b) (txnId : ℕ) (key : Bytes) :
    Kept (b.step hashKey (.recordRead txnId key)) := by
  show Kept { b with manager := b.manager.recordRead hashKey txnId key }
  unfold SSIManager.recordRead
  cases hactive : b.manager.activeTxns.lookup txnId with
  | none => exact h
  | some rw =>
      have hsame : (rw.recordRead (hashKey key)).hasWrites = rw.hasWrites := rfl
      exact h.amend_of_same hactive hsame

theorem recordRangeRead (h : Kept b) (txnId : ℕ) (start last : Bound) :
    Kept (b.step hashKey (.recordRangeRead txnId start last)) := by
  show Kept { b with manager := b.manager.recordRangeRead txnId start last }
  unfold SSIManager.recordRangeRead
  cases hactive : b.manager.activeTxns.lookup txnId with
  | none => exact h
  | some rw =>
      have hsame : (rw.recordRangeRead start last).hasWrites = rw.hasWrites := rfl
      exact h.amend_of_same hactive hsame

theorem hasWrites_recordWrite (rw : ReadWriteSet) (hash : UInt64) :
    (rw.recordWrite hash).hasWrites = true := by
  have hmem : hash ∈ (rw.recordWrite hash).writeKeys := List.mem_insert_self
  unfold ReadWriteSet.hasWrites
  rw [Bool.not_eq_true', List.isEmpty_eq_false_iff]
  exact List.ne_nil_of_mem hmem

theorem recordWrite (h : Kept b) (txnId : ℕ) (key : Bytes) :
    Kept (b.step hashKey (.recordWrite txnId key)) := by
  show Kept { b with manager := b.manager.recordWrite hashKey txnId key }
  unfold SSIManager.recordWrite
  cases hactive : b.manager.activeTxns.lookup txnId with
  | none => exact h
  | some rw =>
      refine h.amend hactive _ ?_
      have herase := countWhere_erase b.manager.activeTxns txnId ReadWriteSet.hasWrites
      rw [hactive, Option.any_some] at herase
      rw [countWhere_insert, hasWrites_recordWrite, if_pos rfl, h.writers]
      -- the first write makes it a writer
      unfold ReadWriteSet.hasWrites at herase ⊢
      cases hempty : rw.writeKeys.isEmpty with
      | true =>
          rw [hempty] at herase
          simp only [Bool.not_true, Bool.false_eq_true, if_false, Nat.add_zero] at herase
          rw [if_pos rfl, herase]
      | false =>
          rw [hempty] at herase
          simp only [Bool.not_false, if_true] at herase
          rw [if_neg Bool.false_ne_true, herase]

/-! ## Ends -/

/-- A transaction is no longer active, read-only or started. -/
theorem leave (h : Kept b) (txnId : ℕ) {manager : SSIManager} (settled : Bool)
    (hactive : ∀ id, id ∈ manager.activeTxns ↔ id ≠ txnId ∧ id ∈ b.manager.activeTxns)
    (hreadOnly : ∀ id, id ∈ manager.readOnlyTxns ↔ id ≠ txnId ∧ id ∈ b.manager.readOnlyTxns)
    (hstart : manager.activeStartTs = b.manager.activeStartTs.erase txnId)
    (hwriters : manager.activeWriters =
      manager.activeTxns.countWhere ReadWriteSet.hasWrites)
    (hsafe : manager.safeSnapshot = manager.updateSafeSnapshot.safeSnapshot) :
    Kept { b with manager, settled } where
  writers := hwriters
  started := by
    intro id
    show id ∈ manager.activeStartTs ↔ id ∈ manager.activeTxns ∨ id ∈ manager.readOnlyTxns
    rw [hstart, AList.mem_erase, h.started, hactive, hreadOnly, and_or_left]
  active := fun id hid => h.active id ((hactive id).mp hid).2
  readOnly := fun id hid => h.readOnly id ((hreadOnly id).mp hid).2
  begunReadOnly := h.begunReadOnly
  safe := fun _ => hsafe

/-- The counter without a transaction that leaves. -/
theorem writers_erase (h : Kept b) (txnId : ℕ) :
    (match b.manager.activeTxns.lookup txnId with
      | .none => b.manager.activeWriters
      | .some rw =>
          if rw.writeKeys.isEmpty then b.manager.activeWriters else b.manager.activeWriters - 1) =
      HashMap.countWhere (b.manager.activeTxns.erase txnId) ReadWriteSet.hasWrites := by
  have herase := countWhere_erase b.manager.activeTxns txnId ReadWriteSet.hasWrites
  rw [← h.writers] at herase
  cases hactive : b.manager.activeTxns.lookup txnId with
  | none =>
      rw [hactive, Option.any_none, if_neg Bool.false_ne_true, Nat.add_zero] at herase
      exact herase.symm
  | some rw =>
      rw [hactive, Option.any_some] at herase
      unfold ReadWriteSet.hasWrites at herase ⊢
      cases hempty : rw.writeKeys.isEmpty with
      | true =>
          simp only [hempty, Bool.not_true, Bool.false_eq_true, if_false, Nat.add_zero] at herase
          simp only [hempty, if_true]
          exact herase.symm
      | false =>
          simp only [hempty, Bool.not_false, if_true] at herase
          simp only [hempty, Bool.false_eq_true, if_false]
          omega

theorem abortTxn (h : Kept b) (txnId : ℕ) : Kept (b.step hashKey (.abortTxn txnId)) :=
  h.leave txnId true (fun _ => AList.mem_erase) (fun _ => AList.mem_erase) rfl
    (h.writers_erase txnId) rfl

theorem commitReadOnlyTxn (h : Kept b) {txnId : ℕ} (hbegun : txnId ∈ b.begunReadOnly) :
    Kept (b.step hashKey (.commitReadOnlyTxn txnId)) := by
  refine h.leave txnId b.settled ?_ (fun _ => AList.mem_erase) rfl h.writers rfl
  intro id
  refine ⟨fun hid => ⟨?_, hid⟩, And.right⟩
  rintro rfl
  exact (h.active id hid).2 hbegun

theorem validate (h : Kept b) (txnId readTs commitTs : ℕ) (writtenKeys : List Bytes) :
    Kept (b.step hashKey (.validateAndCommitWithKeys txnId readTs commitTs writtenKeys)) := by
  obtain ⟨manager, hmanager, hcases⟩ :=
    b.manager.validate_cases txnId readTs commitTs writtenKeys
  have hstep : b.step hashKey (.validateAndCommitWithKeys txnId readTs commitTs writtenKeys) =
      { b with
        manager
        settled := b.settled || b.manager.accepts txnId readTs commitTs writtenKeys } := by
    rw [← hmanager]
    rfl
  rw [hstep]
  rcases hcases with ⟨hok, haccepts⟩ | ⟨e, herror, haccepts⟩
  · obtain ⟨rw, outbound, hactive, _, rfl⟩ := SSIManager.validate_ok hok
    -- it was active, so it had not begun read-only
    have hnot : txnId ∉ b.manager.readOnlyTxns := by
      intro hread
      exact (h.active txnId (mem_active hactive)).2 (h.readOnly txnId hread)
    have herase : ∀ rw', (b.manager.activeTxns.insert txnId rw').erase txnId =
        b.manager.activeTxns.erase txnId := fun rw' => erase_insert_self txnId rw' _
    refine h.leave txnId _ ?_ ?_ rfl ?_ rfl
    · intro id
      show id ∈ (b.manager.activeTxns.insert txnId _).erase txnId ↔ _
      rw [herase, AList.mem_erase]
    · intro id
      refine ⟨fun hid => ⟨?_, hid⟩, And.right⟩
      rintro rfl
      exact hnot hid
    · have hwriters := h.writers_erase txnId
      rw [hactive] at hwriters
      show (if rw.writeKeys.isEmpty then _ else _) =
        HashMap.countWhere ((b.manager.activeTxns.insert txnId _).erase txnId) _
      rw [herase]
      exact hwriters
  · rw [haccepts, Bool.or_false]
    rcases SSIManager.validate_error herror with rfl | ⟨rw, inbound, outbound, hactive, rfl⟩
    · exact h
    · exact h.amend_of_same hactive rfl

theorem step (h : Kept b) {call : SsiCall} (hproper : b.Proper call) :
    Kept (b.step hashKey call) := by
  cases call with
  | beginTxnWithTs txnId startTs => exact h.beginTxnWithTs hproper startTs
  | beginReadOnlyTxn txnId startTs => exact h.beginReadOnlyTxn hproper startTs
  | recordRead txnId key => exact h.recordRead txnId key
  | recordWrite txnId key => exact h.recordWrite txnId key
  | recordRangeRead txnId start last => exact h.recordRangeRead txnId start last
  | validateAndCommitWithKeys txnId readTs commitTs writtenKeys =>
      exact h.validate txnId readTs commitTs writtenKeys
  | abortTxn txnId => exact h.abortTxn txnId
  | commitReadOnlyTxn txnId => exact h.commitReadOnlyTxn hproper
  | advanceWatermark newWatermark =>
      show Kept { b with manager := b.manager.advanceWatermark newWatermark }
      unfold SSIManager.advanceWatermark
      split
      · exact ⟨h.writers, h.started, h.active, h.readOnly, h.begunReadOnly, h.safe⟩
      · exact h

/-! ## What follows -/

theorem balanced (h : Kept b) : Balanced b where
  writers := h.writers
  positive := by
    intro txnId rw hactive hwrites
    rw [h.writers]
    exact countWhere_pos hactive hwrites
  started := h.started
  least := by
    rintro hsettled ⟨txnId, hmem⟩
    obtain ⟨startTs, hlookup⟩ := Option.isSome_iff_exists.mp (AList.lookup_isSome.mpr hmem)
    -- the starts, as the list that the minimum is taken of
    have hstarts : ∀ ts, ts ∈ b.manager.activeStartTs.entries.map Sigma.snd ↔
        ∃ id, b.manager.activeStartTs.lookup id = some ts := by
      intro ts
      rw [List.mem_map]
      constructor
      · rintro ⟨e, he, rfl⟩
        exact ⟨e.1, AList.mem_lookup_iff.mpr he⟩
      · rintro ⟨id, hid⟩
        exact ⟨⟨id, ts⟩, AList.mem_lookup_iff.mp hid, rfl⟩
    have hne := List.ne_nil_of_mem ((hstarts startTs).mpr ⟨txnId, hlookup⟩)
    obtain ⟨least, hleast⟩ := Option.isSome_iff_exists.mp (List.isSome_min?_iff.mpr hne)
    have hsafe : b.manager.safeSnapshot = least := by
      rw [h.safe hsettled, SSIManager.updateSafeSnapshot]
      simp only [hleast, Option.getD_some]
    obtain ⟨hmem, hle⟩ := List.min?_eq_some_iff.mp hleast
    rw [hsafe]
    exact ⟨(hstarts least).mp hmem, fun ts hts => hle ts ((hstarts ts).mpr hts)⟩
  none := by
    intro hsettled hempty
    have hnil : b.manager.activeStartTs.entries = [] := by
      rw [List.eq_nil_iff_forall_not_mem]
      intro e he
      exact hempty e.1 (AList.lookup_isSome.mp
        (Option.isSome_iff_exists.mpr ⟨e.2, AList.mem_lookup_iff.mpr he⟩))
    rw [h.safe hsettled, SSIManager.updateSafeSnapshot]
    simp only [hnil]
    rfl

end Kept

/-- **The bookkeeping of the manager is balanced after any calls.** -/
theorem balanced_run (hashKey : Bytes → UInt64) (calls : List SsiCall)
    (hproper : Along (step hashKey) Proper init calls) :
    Balanced (run (step hashKey) init calls) :=
  (hproper.invariant Kept (fun _ _ h hcall => h.step hcall) kept_init).balanced

/-- A commit with two writes, an abort after it, a rejected validation of an id that is not
active, and a read-only transaction. -/
theorem balanced_run_committed :
    Balanced (run (step fun key => key.length.toUInt64) init
      [.beginTxnWithTs 1 5, .recordWrite 1 [7], .recordWrite 1 [7, 8], .beginReadOnlyTxn 2 6,
        .validateAndCommitWithKeys 1 5 9 [[7]], .abortTxn 1,
        .validateAndCommitWithKeys 1 5 10 [], .commitReadOnlyTxn 2]) :=
  balanced_run _ _ (by decide)

end SsiBook
end Crabstash

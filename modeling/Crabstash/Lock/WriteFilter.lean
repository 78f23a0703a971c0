import Crabstash.Lock.SsiCalls

/-!
# The filter of written keys

`write_bloom` of `SSIManager`: three bits for every key hash that has ever been recorded as
written, and none is cleared.  `may_have_write_conflict` asks it whether a validation could find
a writer of what was read; where it says no, the read check of the validation has nothing to find.

A `record_write` puts the hash into the set of its transaction first and sets the bits after
that, one at a time, while other calls go on.  It holds the lock of the set, so that a validation
of the same transaction waits for it, and when the writes are published all their bits are set.
-/

namespace Crabstash

/-- `BloomFilter` of `ssi.rs`, a vector of words. -/
structure WriteBloom where
  bits : List UInt64
  deriving DecidableEq, Repr

namespace WriteBloom

/-- `BLOOM_SIZE_BITS`. -/
def bloomSizeBits : ℕ := 8192

/-- `WriteBloom::new`: no bit is set. -/
def new : WriteBloom := { bits := List.replicate ((bloomSizeBits + 63) / 64) 0 }

/-- `get_bit_indices`. -/
def getBitIndices (hash : UInt64) : List ℕ :=
  let h1 := hash
  let h2 := hash >>> 16
  let h3 := hash >>> 32
  [h1.toNat % bloomSizeBits, (h1 + h2).toNat % bloomSizeBits,
    (h1 + h2 + h3).toNat % bloomSizeBits]

/-- `1 << bit_idx`. -/
def bitMask (idx : ℕ) : UInt64 := 1 <<< UInt64.ofNat (idx % 64)

/-- One round of `insert`. -/
def setBit (bloom : WriteBloom) (idx : ℕ) : WriteBloom :=
  { bits := bloom.bits.modify (idx / 64) (· ||| bitMask idx) }

/-- One round of `may_contain`. -/
def isSet (bloom : WriteBloom) (idx : ℕ) : Bool := bloom.bits.getD (idx / 64) 0 &&& bitMask idx != 0

/-- `may_contain`. -/
def mayContain (bloom : WriteBloom) (hash : UInt64) : Bool := (getBitIndices hash).all bloom.isSet

/-! ## Bits -/

theorem lt_of_mem_getBitIndices {hash : UInt64} {idx : ℕ} (h : idx ∈ getBitIndices hash) :
    idx < bloomSizeBits := by
  simp only [getBitIndices, List.mem_cons, List.not_mem_nil, or_false] at h
  rcases h with rfl | rfl | rfl <;> exact Nat.mod_lt _ (by decide)

theorem bitMask_ne_zero (idx : ℕ) : bitMask idx ≠ 0 := by
  have hall : ∀ i < 64, (1 : UInt64) <<< UInt64.ofNat i ≠ 0 := by decide
  exact hall _ (Nat.mod_lt _ (by decide))

theorem or_and_ne_zero {a m b : UInt64} (h : a &&& b ≠ 0 ∨ m &&& b ≠ 0) :
    (a ||| m) &&& b ≠ 0 := by
  intro hzero
  rw [← UInt64.toBitVec_inj] at hzero
  rcases h with h | h
  all_goals
    apply h
    rw [← UInt64.toBitVec_inj]
    ext i hi
    have hbit := congrArg (fun v : BitVec 64 => v[i]) hzero
    simp at hbit ⊢
    grind

@[simp] theorem length_setBit (bloom : WriteBloom) (idx : ℕ) :
    (bloom.setBit idx).bits.length = bloom.bits.length := List.length_modify ..

theorem isSet_setBit_self {bloom : WriteBloom} {idx : ℕ} (h : idx / 64 < bloom.bits.length) :
    (bloom.setBit idx).isSet idx = true := by
  simp only [isSet, setBit, List.getD_eq_getElem?_getD, List.getElem?_modify_eq,
    List.getElem?_eq_getElem h, Option.map_eq_map, Option.map_some, Option.getD_some, bne_iff_ne]
  exact or_and_ne_zero (Or.inr (by simpa using bitMask_ne_zero idx))

/-- A bit that is set stays set. -/
theorem isSet_setBit {bloom : WriteBloom} {idx : ℕ} (h : bloom.isSet idx = true) (idx' : ℕ) :
    (bloom.setBit idx').isSet idx = true := by
  rw [isSet, bne_iff_ne] at h ⊢
  rw [List.getD_eq_getElem?_getD] at h ⊢
  rw [setBit]
  by_cases hword : idx' / 64 = idx / 64
  · rw [hword, List.getElem?_modify_eq]
    cases hget : bloom.bits[idx / 64]? with
    | none => simp [hget] at h
    | some word =>
        rw [hget] at h
        exact or_and_ne_zero (Or.inl h)
  · rwa [List.getElem?_modify_ne _ _ hword]

theorem mayContain_iff {bloom : WriteBloom} {hash : UInt64} :
    bloom.mayContain hash = true ↔ ∀ idx ∈ getBitIndices hash, bloom.isSet idx = true :=
  List.all_eq_true

end WriteBloom

/-! ## The manager with its filter -/

/-- The manager, the filter, and the calls of `record_write` that are still setting bits, each
with its transaction and the bits to come. -/
structure FilteredManager where
  manager : SSIManager
  writeBloom : WriteBloom
  inserting : List (ℕ × List ℕ)

/-- A call of the manager, or one bit of a write that is being entered into the filter. -/
inductive FilterStep where
  | call (call : SsiCall)
  | setBit (i : ℕ)
  deriving DecidableEq, Repr

namespace FilteredManager

/-- A new manager with an empty filter, and nothing being entered. -/
def init : FilteredManager :=
  { manager := SSIManager.new, writeBloom := WriteBloom.new, inserting := [] }

/-- A `record_write` of the transaction has the lock of its set. -/
def isLocked (s : FilteredManager) (txnId : ℕ) : Bool := s.inserting.any fun call => call.1 == txnId

/-- `may_have_write_conflict`. -/
def mayHaveWriteConflict (s : FilteredManager) (readKeys : List UInt64) : Bool :=
  readKeys.any s.writeBloom.mayContain

section

variable (hashKey : Bytes → UInt64)

/-- What a call leaves to be done with the filter. -/
def begun (s : FilteredManager) : SsiCall → List (ℕ × List ℕ)
  | .recordWrite txnId key =>
      if (s.manager.activeTxns.lookup txnId).isSome then
        [(txnId, WriteBloom.getBitIndices (hashKey key))]
      else []
  | _ => []

/-- A call, whose writes are entered into the filter one bit after the other. -/
def makeCall (s : FilteredManager) (call : SsiCall) : FilteredManager :=
  { s with
    manager := s.manager.call hashKey call
    inserting := s.inserting ++ s.begun hashKey call }

/-- A call, or the next bit of a `record_write`; a validation waits for the lock of the set. -/
def step (s : FilteredManager) : FilterStep → FilteredManager
  | .call (.validateAndCommitWithKeys txnId readTs commitTs writtenKeys) =>
      if s.isLocked txnId then s
      else s.makeCall hashKey (.validateAndCommitWithKeys txnId readTs commitTs writtenKeys)
  | .call call => s.makeCall hashKey call
  | .setBit i =>
      match s.inserting[i]? with
      | none => s
      | some (_, []) => { s with inserting := s.inserting.eraseIdx i }
      | some (txnId, idx :: rest) =>
          { s with
            writeBloom := s.writeBloom.setBit idx
            inserting := s.inserting.set i (txnId, rest) }

end

end FilteredManager

/-! ## What a call publishes and records -/

namespace SSIManager

variable {hashKey : Bytes → UInt64} {s : SSIManager}

theorem SameCommits.writersOf {s s' : SSIManager} (h : SameCommits s s') (hash : UInt64) :
    s'.writersOf hash = s.writersOf hash := by
  rw [SSIManager.writersOf, SSIManager.writersOf, h.writeIndex]

/-- A new writer in the index is the transaction that the call validates. -/
theorem mem_writersOf_call {call : SsiCall} {hash : UInt64} {entry : WriteIndexEntry}
    (h : entry ∈ (s.call hashKey call).writersOf hash) :
    entry ∈ s.writersOf hash ∨ ∃ txnId readTs commitTs writtenKeys rw,
      call = .validateAndCommitWithKeys txnId readTs commitTs writtenKeys ∧
        s.activeTxns.lookup txnId = some rw ∧ hash ∈ rw.writeKeys := by
  cases call with
  | beginTxnWithTs txnId startTs => exact Or.inl h
  | beginReadOnlyTxn txnId startTs => exact Or.inl h
  | recordRead txnId key =>
      rw [SSIManager.call, (sameCommits_recordRead hashKey s txnId key).writersOf] at h
      exact Or.inl h
  | recordWrite txnId key =>
      rw [SSIManager.call, (sameCommits_recordWrite hashKey s txnId key).writersOf] at h
      exact Or.inl h
  | recordRangeRead txnId start last =>
      rw [SSIManager.call, (sameCommits_recordRangeRead s txnId start last).writersOf] at h
      exact Or.inl h
  | validateAndCommitWithKeys txnId readTs commitTs writtenKeys =>
      obtain ⟨s', hs', hcases⟩ := s.validate_cases txnId readTs commitTs writtenKeys
      rw [SSIManager.call, hs'] at h
      rcases hcases with ⟨hok, _⟩ | ⟨e, herror, _⟩
      · obtain ⟨rw', outbound, hactive, _, rfl⟩ := validate_ok hok
        rw [writersOf_publish, List.mem_append] at h
        rcases h with h | h
        · exact Or.inl h
        · right
          refine ⟨txnId, readTs, commitTs, writtenKeys, rw', rfl, hactive, ?_⟩
          exact List.count_pos_iff.mp (Nat.pos_of_ne_zero (List.mem_replicate.mp h).1)
      -- a rejected validation leaves the index as it was
      · left
        rcases validate_error herror with rfl | ⟨_, _, _, _, rfl⟩
        · exact h
        · exact h
  | abortTxn txnId => exact Or.inl h
  | commitReadOnlyTxn txnId => exact Or.inl h
  | advanceWatermark newWatermark =>
      left
      rw [SSIManager.call, writersOf_advanceWatermark] at h
      split at h
      · exact (List.mem_filter.mp h).1
      · exact h

/-- A new hash in the set of an active transaction is the one that the call records. -/
theorem mem_writeKeys_call {call : SsiCall} {txnId : ℕ} {rw' : ReadWriteSet} {hash : UInt64}
    (hactive : (s.call hashKey call).activeTxns.lookup txnId = some rw')
    (hhash : hash ∈ rw'.writeKeys) :
    (∃ rw, s.activeTxns.lookup txnId = some rw ∧ hash ∈ rw.writeKeys) ∨
      ∃ key, call = .recordWrite txnId key ∧ hash = hashKey key ∧
        (s.activeTxns.lookup txnId).isSome = true := by
  cases call with
  | beginTxnWithTs txnId' startTs =>
      rcases lookup_insert_cases hactive with ⟨_, rfl⟩ | hold
      · exact absurd hhash List.not_mem_nil
      · exact Or.inl ⟨rw', hold, hhash⟩
  | beginReadOnlyTxn txnId' startTs => exact Or.inl ⟨rw', hactive, hhash⟩
  | recordRead txnId' key =>
      rw [SSIManager.call, activeTxns_recordRead] at hactive
      rcases eq_or_ne txnId txnId' with rfl | hne
      · rw [lookup_amend_self, Option.map_eq_some_iff] at hactive
        obtain ⟨rw, hold, rfl⟩ := hactive
        exact Or.inl ⟨rw, hold, hhash⟩
      · rw [lookup_amend_ne _ _ hne] at hactive
        exact Or.inl ⟨rw', hactive, hhash⟩
  | recordWrite txnId' key =>
      rw [SSIManager.call, activeTxns_recordWrite] at hactive
      rcases eq_or_ne txnId txnId' with rfl | hne
      · rw [lookup_amend_self, Option.map_eq_some_iff] at hactive
        obtain ⟨rw, hold, rfl⟩ := hactive
        rcases List.mem_insert_iff.mp hhash with heq | hmem
        · exact Or.inr ⟨key, rfl, heq, by rw [hold]; rfl⟩
        · exact Or.inl ⟨rw, hold, hmem⟩
      · rw [lookup_amend_ne _ _ hne] at hactive
        exact Or.inl ⟨rw', hactive, hhash⟩
  | recordRangeRead txnId' start last =>
      rw [SSIManager.call, activeTxns_recordRangeRead] at hactive
      rcases eq_or_ne txnId txnId' with rfl | hne
      · rw [lookup_amend_self, Option.map_eq_some_iff] at hactive
        obtain ⟨rw, hold, rfl⟩ := hactive
        exact Or.inl ⟨rw, hold, hhash⟩
      · rw [lookup_amend_ne _ _ hne] at hactive
        exact Or.inl ⟨rw', hactive, hhash⟩
  | validateAndCommitWithKeys txnId' readTs commitTs writtenKeys =>
      left
      obtain ⟨s', hs', hcases⟩ := s.validate_cases txnId' readTs commitTs writtenKeys
      rw [SSIManager.call, hs'] at hactive
      rcases hcases with ⟨hok, _⟩ | ⟨e, herror, _⟩
      · obtain ⟨rw, outbound, _, _, rfl⟩ := validate_ok hok
        -- whoever is accepted is no longer active
        have hlookup : ((s.activeTxns.insert txnId' _).erase txnId').lookup txnId = some rw' :=
          hactive
        rw [erase_insert_self] at hlookup
        exact ⟨rw', lookup_of_erase hlookup, hhash⟩
      · rcases validate_error herror with rfl | ⟨rw, _, _, hold, rfl⟩
        · exact ⟨rw', hactive, hhash⟩
        · rcases lookup_insert_cases hactive with ⟨rfl, rfl⟩ | hother
          · exact ⟨rw, hold, hhash⟩
          · exact ⟨rw', hother, hhash⟩
  | abortTxn txnId' => exact Or.inl ⟨rw', lookup_of_erase hactive, hhash⟩
  | commitReadOnlyTxn txnId' => exact Or.inl ⟨rw', hactive, hhash⟩
  | advanceWatermark newWatermark =>
      left
      rw [SSIManager.call, advanceWatermark] at hactive
      split at hactive
      · exact ⟨rw', hactive, hhash⟩
      · exact ⟨rw', hactive, hhash⟩

end SSIManager

/-! ## The filter has every writer -/

namespace FilteredManager

open Run

variable {hashKey : Bytes → UInt64} {s : FilteredManager}

/-- The bits of a hash that the transaction has recorded are set, or a call is about to set
them. -/
structure Sound (s : FilteredManager) : Prop where
  length : s.writeBloom.bits.length = 128
  inserting : ∀ call ∈ s.inserting, ∀ idx ∈ call.2, idx < WriteBloom.bloomSizeBits
  recorded : ∀ txnId rw, s.manager.activeTxns.lookup txnId = some rw → ∀ hash ∈ rw.writeKeys,
    ∀ idx ∈ WriteBloom.getBitIndices hash, s.writeBloom.isSet idx = true ∨
      ∃ call ∈ s.inserting, call.1 = txnId ∧ idx ∈ call.2
  published : ∀ hash, s.manager.writersOf hash ≠ [] → s.writeBloom.mayContain hash = true

theorem sound_init : init.Sound where
  length := rfl
  inserting := fun call h => absurd h List.not_mem_nil
  recorded := by
    intro txnId rw h
    contradiction
  published := fun hash h => absurd rfl h

theorem Sound.mayContain_of_not_locked (h : s.Sound) {txnId : ℕ} {rw : ReadWriteSet}
    (hactive : s.manager.activeTxns.lookup txnId = some rw) (hfree : s.isLocked txnId = false)
    {hash : UInt64} (hhash : hash ∈ rw.writeKeys) : s.writeBloom.mayContain hash = true := by
  rw [WriteBloom.mayContain_iff]
  intro idx hidx
  rcases h.recorded txnId rw hactive hash hhash idx hidx with hset | ⟨call, hcall, hid, _⟩
  · exact hset
  · rw [isLocked, List.any_eq_false] at hfree
    exact absurd (beq_iff_eq.mpr hid) (hfree call hcall)

theorem mem_begun {call : SsiCall} {entry : ℕ × List ℕ} (h : entry ∈ s.begun hashKey call) :
    ∃ key, entry.2 = WriteBloom.getBitIndices (hashKey key) := by
  cases call with
  | recordWrite txnId key =>
      rw [begun] at h
      split at h
      · rw [List.mem_singleton.mp h]
        exact ⟨key, rfl⟩
      · exact absurd h List.not_mem_nil
  | _ => exact absurd h List.not_mem_nil

theorem Sound.makeCall (h : s.Sound) {call : SsiCall}
    (hfree : ∀ txnId readTs commitTs writtenKeys,
      call = .validateAndCommitWithKeys txnId readTs commitTs writtenKeys →
        s.isLocked txnId = false) : (s.makeCall hashKey call).Sound where
  length := h.length
  inserting := by
    intro entry hentry idx hidx
    rcases List.mem_append.mp hentry with hentry | hentry
    · exact h.inserting entry hentry idx hidx
    · obtain ⟨key, hkey⟩ := mem_begun hentry
      exact WriteBloom.lt_of_mem_getBitIndices (hkey ▸ hidx)
  recorded := by
    intro txnId rw hactive hash hhash idx hidx
    rcases SSIManager.mem_writeKeys_call hactive hhash with
      ⟨rw', hold, hmem⟩ | ⟨key, rfl, rfl, hsome⟩
    · rcases h.recorded txnId rw' hold hash hmem idx hidx with hset | ⟨entry, hentry, hid, hin⟩
      · exact Or.inl hset
      · exact Or.inr ⟨entry, List.mem_append_left _ hentry, hid, hin⟩
    · right
      refine ⟨(txnId, WriteBloom.getBitIndices (hashKey key)), List.mem_append_right _ ?_, rfl, hidx⟩
      rw [begun, if_pos hsome]
      exact List.mem_singleton_self _
  published := by
    intro hash hwriters
    obtain ⟨entry, hentry⟩ := List.exists_mem_of_ne_nil _ hwriters
    rcases SSIManager.mem_writersOf_call hentry with
      hold | ⟨txnId, readTs, commitTs, writtenKeys, rw, rfl, hactive, hmem⟩
    · exact h.published hash (List.ne_nil_of_mem hold)
    · exact h.mayContain_of_not_locked hactive (hfree _ _ _ _ rfl) hmem

theorem Sound.setBit (h : s.Sound) (i : ℕ) : (s.step hashKey (.setBit i)).Sound := by
  rw [step]
  split
  · exact h
  · next txnId hget =>
      -- a call without bits to come is nobody's reason
      have hother : ∀ call ∈ s.inserting, call.2 ≠ [] → call ∈ s.inserting.eraseIdx i := by
        intro call hcall hne
        obtain ⟨j, hj⟩ := List.mem_iff_getElem?.mp hcall
        refine List.mem_eraseIdx_iff_getElem?.mpr ⟨j, ?_, hj⟩
        rintro rfl
        rw [hget] at hj
        exact hne (Option.some.inj hj ▸ rfl)
      refine ⟨h.length, ?_, ?_, h.published⟩
      · exact fun call hcall => h.inserting call (List.mem_of_mem_eraseIdx hcall)
      · intro txnId' rw hactive hash hhash idx hidx
        rcases h.recorded txnId' rw hactive hash hhash idx hidx with
          hset | ⟨call, hcall, hid, hin⟩
        · exact Or.inl hset
        · exact Or.inr ⟨call, hother call hcall (List.ne_nil_of_mem hin), hid, hin⟩
  · next txnId idx' rest hget =>
      have hentry : (txnId, idx' :: rest) ∈ s.inserting := List.mem_of_getElem? hget
      have hlt : idx' < WriteBloom.bloomSizeBits :=
        h.inserting _ hentry idx' List.mem_cons_self
      have hword : idx' / 64 < s.writeBloom.bits.length := by
        rw [h.length]
        unfold WriteBloom.bloomSizeBits at hlt
        omega
      have hself := WriteBloom.isSet_setBit_self hword
      refine ⟨?_, ?_, ?_, ?_⟩
      · rw [WriteBloom.length_setBit]
        exact h.length
      · intro call hcall idx hidx
        rcases List.mem_or_eq_of_mem_set hcall with hcall | rfl
        · exact h.inserting call hcall idx hidx
        · exact h.inserting _ hentry idx (List.mem_cons_of_mem _ hidx)
      · intro txnId' rw hactive hash hhash idx hidx
        rcases h.recorded txnId' rw hactive hash hhash idx hidx with
          hset | ⟨call, hcall, hid, hin⟩
        · exact Or.inl (WriteBloom.isSet_setBit hset idx')
        · obtain ⟨j, hj⟩ := List.mem_iff_getElem?.mp hcall
          by_cases heq : i = j
          · -- the bit is the one that is set, or it is still to come
            obtain rfl : call = (txnId, idx' :: rest) := by
              rw [← heq, hget] at hj
              exact (Option.some.inj hj).symm
            rcases List.mem_cons.mp hin with rfl | hin
            · exact Or.inl hself
            · right
              refine ⟨(txnId, rest), ?_, hid, hin⟩
              have hbound : i < s.inserting.length := (List.getElem?_eq_some_iff.mp hget).1
              exact List.mem_set hbound _
          · right
            refine ⟨call, List.mem_of_getElem? (i := j) ?_, hid, hin⟩
            rw [List.getElem?_set_ne heq]
            exact hj
      · intro hash hwriters
        have hold := h.published hash hwriters
        rw [WriteBloom.mayContain_iff] at hold ⊢
        exact fun idx hidx => WriteBloom.isSet_setBit (hold idx hidx) idx'

theorem Sound.step (h : s.Sound) (action : FilterStep) : (s.step hashKey action).Sound := by
  cases action with
  | setBit i => exact h.setBit i
  | call call =>
      cases call with
      | validateAndCommitWithKeys txnId readTs commitTs writtenKeys =>
          rw [FilteredManager.step]
          split
          · exact h
          · next hfree =>
              apply h.makeCall
              intro _ _ _ _ heq
              cases heq
              exact Bool.eq_false_iff.mpr hfree
      | _ => exact h.makeCall nofun

theorem sound_run (hashKey : Bytes → UInt64) (steps : List FilterStep) :
    (run (step hashKey) init steps).Sound :=
  Run.invariant Sound (fun _ action h => h.step action) sound_init steps

/-- **Where the filter says no, the read check finds nothing.**  After every run of calls, with the
bits of a write set one at a time, if `may_have_write_conflict` is false of some hashes then the
index has no writer of them, no transaction has one of them in its write set but in a call that
has not returned, and a transaction that has read nothing else is rejected only for a phantom or
for a conflict noted before. -/
theorem mayHaveWriteConflict_run (hashKey : Bytes → UInt64) (steps : List FilterStep)
    {readKeys : List UInt64}
    (hfilter : (run (step hashKey) init steps).mayHaveWriteConflict readKeys = false) :
    (∀ hash ∈ readKeys, (run (step hashKey) init steps).manager.writersOf hash = []) ∧
      (∀ txnId rw, (run (step hashKey) init steps).manager.activeTxns.lookup txnId = some rw →
        (run (step hashKey) init steps).isLocked txnId = false →
          ∀ hash ∈ rw.writeKeys, hash ∉ readKeys) ∧
      ∀ txnId rw readTs commitTs writtenKeys,
        (run (step hashKey) init steps).manager.activeTxns.lookup txnId = some rw →
          rw.readKeys ⊆ readKeys → rw.inboundConflicts = [] →
            (((run (step hashKey) init steps).manager.validateAndCommitWithKeys txnId readTs
              commitTs writtenKeys).1 = .ok () ↔
                ¬ (run (step hashKey) init steps).manager.FindsPhantom rw readTs commitTs) := by
  have hsound := sound_run hashKey steps
  generalize run (step hashKey) init steps = s at hfilter hsound ⊢
  rw [mayHaveWriteConflict, List.any_eq_false] at hfilter
  have hwriters : ∀ hash ∈ readKeys, s.manager.writersOf hash = [] := by
    intro hash hhash
    by_contra hne
    exact hfilter hash hhash (hsound.published hash hne)
  refine ⟨hwriters, ?_, ?_⟩
  · intro txnId rw hactive hfree hash hwritten hread
    exact hfilter hash hread (hsound.mayContain_of_not_locked hactive hfree hwritten)
  · intro txnId rw readTs commitTs writtenKeys hactive hsubset hinbound
    have hfound : s.manager.findInboundConflicts rw txnId readTs commitTs = [] := by
      rw [SSIManager.findInboundConflicts_eq_nil_iff]
      intro hash hhash entry hentry
      rw [hwriters hash (hsubset hhash)] at hentry
      exact absurd hentry List.not_mem_nil
    rw [SSIManager.validate_ok_iff hactive]
    exact ⟨fun h => h.2.2, fun h => ⟨hinbound, hfound, h⟩⟩

/-- Transaction 1 writes a key and is accepted; transaction 2 has read another one. -/
def otherKey : List FilterStep :=
  [.call (.beginTxnWithTs 1 1), .call (.beginTxnWithTs 2 2), .call (.recordWrite 1 [7]),
    .call (.recordRead 2 [8]), .setBit 0, .setBit 0, .setBit 0, .setBit 0,
    .call (.validateAndCommitWithKeys 1 1 3 [])]

/-- The first byte of a key. -/
def headHash (key : Bytes) : UInt64 := (key.headD 0).toUInt64

theorem mayHaveWriteConflict_run_otherKey :
    (∀ hash ∈ [headHash [8]],
      (run (step headHash) init otherKey).manager.writersOf hash = []) ∧
      (∀ txnId rw, (run (step headHash) init otherKey).manager.activeTxns.lookup txnId = some rw →
        (run (step headHash) init otherKey).isLocked txnId = false →
          ∀ hash ∈ rw.writeKeys, hash ∉ [headHash [8]]) ∧
      ∀ txnId rw readTs commitTs writtenKeys,
        (run (step headHash) init otherKey).manager.activeTxns.lookup txnId = some rw →
          rw.readKeys ⊆ [headHash [8]] → rw.inboundConflicts = [] →
            (((run (step headHash) init otherKey).manager.validateAndCommitWithKeys txnId readTs
              commitTs writtenKeys).1 = .ok () ↔
                ¬ (run (step headHash) init otherKey).manager.FindsPhantom rw readTs commitTs) :=
  mayHaveWriteConflict_run headHash otherKey (by decide +kernel)

end FilteredManager
end Crabstash

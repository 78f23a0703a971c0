import Crabstash.Lock.SsiCalls

/-!
# Transactions that are never accepted

A transaction that is never accepted leaves no trace in the verdicts on the others: the run
without its calls gives them the same verdicts, whatever it has read, written or had
validated, and wherever its calls stood (`verdicts_filter`).

The two managers are compared while the run goes on.  `AgreeApart` says what they have in
common: the index, the committed transactions and the watermark, and of every other
transaction its start and what it has read and written.  Of the conflicts in a set they only
need to agree on whether there are inbound ones: which ones there are may depend on the
order in which a map is iterated, but decides nothing.
-/

namespace Crabstash
namespace SSIManager

/-- Sets that the manager treats alike. -/
structure Alike (rw rw' : ReadWriteSet) : Prop where
  readKeys : rw'.readKeys = rw.readKeys
  writeKeys : rw'.writeKeys = rw.writeKeys
  readRanges : rw'.readRanges = rw.readRanges
  inbound : rw'.inboundConflicts = [] ↔ rw.inboundConflicts = []

theorem Alike.refl (rw : ReadWriteSet) : Alike rw rw := ⟨rfl, rfl, rfl, Iff.rfl⟩

section

variable {rw rw' : ReadWriteSet} (h : Alike rw rw')

include h

theorem Alike.recordRead (hash : UInt64) : Alike (rw.recordRead hash) (rw'.recordRead hash) :=
  ⟨congrArg (List.insert hash) h.readKeys, h.writeKeys, h.readRanges, h.inbound⟩

theorem Alike.recordWrite (hash : UInt64) : Alike (rw.recordWrite hash) (rw'.recordWrite hash) :=
  ⟨h.readKeys, congrArg (List.insert hash) h.writeKeys, h.readRanges, h.inbound⟩

theorem Alike.recordRangeRead (start last : Bound) :
    Alike (rw.recordRangeRead start last) (rw'.recordRangeRead start last) :=
  ⟨h.readKeys, h.writeKeys, congrArg (· ++ [(start, last)]) h.readRanges, h.inbound⟩

end

/-- Two managers that differ in one transaction only. -/
structure AgreeApart (apart : ℕ) (s s' : SSIManager) : Prop where
  active : ∀ txnId, txnId ≠ apart →
    Option.Rel Alike (s.activeTxns.lookup txnId) (s'.activeTxns.lookup txnId)
  startTs : ∀ txnId, txnId ≠ apart → s'.activeStartTs.lookup txnId = s.activeStartTs.lookup txnId
  committed : ∀ ts, s'.committedTxns.lookup ts = s.committedTxns.lookup ts
  writers : ∀ hash, s'.writersOf hash = s.writersOf hash
  watermark : s'.watermark = s.watermark

theorem AgreeApart.refl (apart : ℕ) (s : SSIManager) : AgreeApart apart s s where
  active := by
    intro txnId _
    cases s.activeTxns.lookup txnId with
    | none => exact Option.Rel.none
    | some rw => exact Option.Rel.some (Alike.refl rw)
  startTs := fun _ _ => rfl
  committed := fun _ => rfl
  writers := fun _ => rfl
  watermark := rfl

/-! ## The calls of the transaction itself -/

/-- What a call that is not accepted changes is about the caller only. -/
structure OnlyAbout (apart : ℕ) (s s' : SSIManager) : Prop where
  active : ∀ txnId, txnId ≠ apart → s'.activeTxns.lookup txnId = s.activeTxns.lookup txnId
  startTs : ∀ txnId, txnId ≠ apart → s'.activeStartTs.lookup txnId = s.activeStartTs.lookup txnId
  committedTxns : s'.committedTxns = s.committedTxns
  writeIndex : s'.writeIndex = s.writeIndex
  watermark : s'.watermark = s.watermark

theorem AgreeApart.onlyAbout {apart : ℕ} {s s' t : SSIManager} (h : AgreeApart apart s t)
    (honly : OnlyAbout apart s s') : AgreeApart apart s' t where
  active := by
    intro txnId hne
    rw [honly.active txnId hne]
    exact h.active txnId hne
  startTs := fun txnId hne => (h.startTs txnId hne).trans (honly.startTs txnId hne).symm
  committed := by
    rw [honly.committedTxns]
    exact h.committed
  writers := by
    intro hash
    rw [h.writers, writersOf, writersOf, honly.writeIndex]
  watermark := h.watermark.trans honly.watermark.symm

theorem OnlyAbout.of_amend {apart : ℕ} {s s' : SSIManager} {f : ReadWriteSet → ReadWriteSet}
    (hactive : s'.activeTxns = s.activeTxns.amend apart f) (hsame : s.SameCommits s') :
    OnlyAbout apart s s' where
  active := by
    intro txnId hne
    rw [hactive]
    exact lookup_amend_ne _ _ hne
  startTs := by
    intro txnId _
    rw [hsame.activeStartTs]
  committedTxns := hsame.committedTxns
  writeIndex := hsame.writeIndex
  watermark := hsame.watermark

variable {hashKey : Bytes → UInt64}

/-- The calls of a transaction are about itself, unless it is accepted. -/
theorem onlyAbout_call {s : SSIManager} {call : SsiCall} {apart : ℕ}
    (hcaller : call.caller = some apart)
    (hrejected : ∀ readTs commitTs writtenKeys,
      call = .validateAndCommitWithKeys apart readTs commitTs writtenKeys →
        s.accepts apart readTs commitTs writtenKeys = false) :
    OnlyAbout apart s (s.call hashKey call) := by
  cases call with
  | beginTxnWithTs txnId startTs =>
      obtain rfl : txnId = apart := Option.some.inj hcaller
      exact ⟨fun _ hne => AList.lookup_insert_ne hne, fun _ hne => AList.lookup_insert_ne hne,
        rfl, rfl, rfl⟩
  | beginReadOnlyTxn txnId startTs =>
      obtain rfl : txnId = apart := Option.some.inj hcaller
      exact ⟨fun _ _ => rfl, fun _ hne => AList.lookup_insert_ne hne, rfl, rfl, rfl⟩
  | recordRead txnId key =>
      obtain rfl : txnId = apart := Option.some.inj hcaller
      exact OnlyAbout.of_amend (activeTxns_recordRead hashKey s txnId key)
        (sameCommits_recordRead hashKey s txnId key)
  | recordWrite txnId key =>
      obtain rfl : txnId = apart := Option.some.inj hcaller
      exact OnlyAbout.of_amend (activeTxns_recordWrite hashKey s txnId key)
        (sameCommits_recordWrite hashKey s txnId key)
  | recordRangeRead txnId start last =>
      obtain rfl : txnId = apart := Option.some.inj hcaller
      exact OnlyAbout.of_amend (activeTxns_recordRangeRead s txnId start last)
        (sameCommits_recordRangeRead s txnId start last)
  | validateAndCommitWithKeys txnId readTs commitTs writtenKeys =>
      obtain rfl : txnId = apart := Option.some.inj hcaller
      have hnot := hrejected readTs commitTs writtenKeys rfl
      rw [← Bool.not_eq_true, accepts_eq_true_iff] at hnot
      cases hresult : s.validateAndCommitWithKeys txnId readTs commitTs writtenKeys with
      | mk result s' =>
          have hcall : s.call hashKey
              (.validateAndCommitWithKeys txnId readTs commitTs writtenKeys) = s' :=
            congrArg Prod.snd hresult
          rw [hcall]
          rw [hresult] at hnot
          cases result with
          | ok _ => exact absurd rfl hnot
          | error e =>
              rcases validate_error hresult with rfl | ⟨rw, _, _, _, rfl⟩
              · exact ⟨fun _ _ => rfl, fun _ _ => rfl, rfl, rfl, rfl⟩
              · -- a rejected validation only writes down its conflicts
                exact ⟨fun _ hne => AList.lookup_insert_ne hne, fun _ _ => rfl, rfl, rfl, rfl⟩
  | abortTxn txnId =>
      obtain rfl : txnId = apart := Option.some.inj hcaller
      exact ⟨fun _ hne => AList.lookup_erase_ne hne, fun _ hne => AList.lookup_erase_ne hne,
        rfl, rfl, rfl⟩
  | commitReadOnlyTxn txnId =>
      obtain rfl : txnId = apart := Option.some.inj hcaller
      exact ⟨fun _ _ => rfl, fun _ hne => AList.lookup_erase_ne hne, rfl, rfl, rfl⟩
  | advanceWatermark newWatermark => contradiction

/-! ## The calls of the others -/

variable {apart : ℕ} {s s' : SSIManager}

/-- The same record in both. -/
theorem AgreeApart.amend (h : AgreeApart apart s s') {t t' : SSIManager} {txnId : ℕ}
    {f : ReadWriteSet → ReadWriteSet} (hf : ∀ rw rw', Alike rw rw' → Alike (f rw) (f rw'))
    (ht : t.activeTxns = s.activeTxns.amend txnId f) (hsame : s.SameCommits t)
    (ht' : t'.activeTxns = s'.activeTxns.amend txnId f) (hsame' : s'.SameCommits t') :
    AgreeApart apart t t' where
  active := by
    intro txnId' hne
    rw [ht, ht']
    exact rel_lookup_amend hf (h.active txnId' hne) txnId
  startTs := by
    intro txnId' hne
    rw [hsame.activeStartTs, hsame'.activeStartTs]
    exact h.startTs txnId' hne
  committed := by
    rw [hsame.committedTxns, hsame'.committedTxns]
    exact h.committed
  writers := by
    intro hash
    rw [writersOf, writersOf, hsame.writeIndex, hsame'.writeIndex]
    exact h.writers hash
  watermark := by
    rw [hsame.watermark, hsame'.watermark]
    exact h.watermark

theorem AgreeApart.advanceWatermark (h : AgreeApart apart s s') (newWatermark : ℕ) :
    AgreeApart apart (s.advanceWatermark newWatermark) (s'.advanceWatermark newWatermark) := by
  have hwriters : ∀ hash, (s'.advanceWatermark newWatermark).writersOf hash =
      (s.advanceWatermark newWatermark).writersOf hash := by
    intro hash
    rw [writersOf_advanceWatermark, writersOf_advanceWatermark, h.watermark, h.writers]
  unfold SSIManager.advanceWatermark at hwriters ⊢
  rw [h.watermark] at hwriters ⊢
  by_cases hlater : s.watermark < newWatermark
  · rw [if_pos hlater, if_pos hlater] at hwriters ⊢
    refine ⟨h.active, h.startTs, fun ts => ?_, hwriters, rfl⟩
    show (s'.committedTxns.retain _).lookup ts = (s.committedTxns.retain _).lookup ts
    rw [lookup_retain, lookup_retain, h.committed]
  · rw [if_neg hlater, if_neg hlater]
    exact h

/-! ## The verdicts on the others -/

private theorem findInboundConflicts_agree (h : AgreeApart apart s s') {rw rw' : ReadWriteSet}
    (halike : Alike rw rw') (txnId readTs commitTs : ℕ) :
    s'.findInboundConflicts rw' txnId readTs commitTs = [] ↔
      s.findInboundConflicts rw txnId readTs commitTs = [] := by
  rw [findInboundConflicts_eq_nil_iff, findInboundConflicts_eq_nil_iff, halike.readKeys]
  simp only [h.writers]

private theorem findsPhantom_agree (h : AgreeApart apart s s') {rw rw' : ReadWriteSet}
    (halike : Alike rw rw') (readTs commitTs : ℕ) :
    s'.FindsPhantom rw' readTs commitTs ↔ s.FindsPhantom rw readTs commitTs := by
  unfold FindsPhantom
  simp only [h.committed, halike.readRanges]

theorem AgreeApart.lookup_cases (h : AgreeApart apart s s') {txnId : ℕ} (hne : txnId ≠ apart) :
    (s.activeTxns.lookup txnId = none ∧ s'.activeTxns.lookup txnId = none) ∨
      ∃ rw rw', s.activeTxns.lookup txnId = some rw ∧ s'.activeTxns.lookup txnId = some rw' ∧
        Alike rw rw' := by
  have hrel := h.active txnId hne
  generalize s.activeTxns.lookup txnId = before at hrel ⊢
  generalize s'.activeTxns.lookup txnId = before' at hrel ⊢
  cases hrel with
  | none => exact Or.inl ⟨rfl, rfl⟩
  | some halike => exact Or.inr ⟨_, _, rfl, rfl, halike⟩

/-- Two validations of sets that are alike, which find conflicts or find none in both. -/
theorem Alike.validate_cases {rw rw' : ReadWriteSet} (halike : Alike rw rw')
    {txnId readTs commitTs : ℕ} (writtenKeys : List Bytes)
    (hrw : s.activeTxns.lookup txnId = some rw) (hrw' : s'.activeTxns.lookup txnId = some rw')
    (hfound : s'.findInboundConflicts rw' txnId readTs commitTs = [] ↔
      s.findInboundConflicts rw txnId readTs commitTs = [])
    (hphantom : s'.FindsPhantom rw' readTs commitTs ↔ s.FindsPhantom rw readTs commitTs) :
    (s'.accepts txnId readTs commitTs writtenKeys = s.accepts txnId readTs commitTs writtenKeys) ∧
    ∃ set set', Alike set set' ∧
      ((s.validateAndCommitWithKeys txnId readTs commitTs writtenKeys).2 =
          { s with activeTxns := s.activeTxns.insert txnId set } ∧
        (s'.validateAndCommitWithKeys txnId readTs commitTs writtenKeys).2 =
          { s' with activeTxns := s'.activeTxns.insert txnId set' } ∨
      (s.validateAndCommitWithKeys txnId readTs commitTs writtenKeys).2 =
          { s with activeTxns := s.activeTxns.insert txnId set }.publish set txnId readTs commitTs
            writtenKeys ∧
        (s'.validateAndCommitWithKeys txnId readTs commitTs writtenKeys).2 =
          { s' with activeTxns := s'.activeTxns.insert txnId set' }.publish set' txnId readTs
            commitTs writtenKeys) := by
  have haccepts : (s'.validateAndCommitWithKeys txnId readTs commitTs writtenKeys).1 = .ok () ↔
      (s.validateAndCommitWithKeys txnId readTs commitTs writtenKeys).1 = .ok () := by
    rw [validate_ok_iff hrw, validate_ok_iff hrw', halike.inbound, hfound, hphantom]
  refine ⟨?_, ?_⟩
  · rw [Bool.eq_iff_iff, accepts_eq_true_iff, accepts_eq_true_iff, haccepts]
  · cases hresult : s.validateAndCommitWithKeys txnId readTs commitTs writtenKeys with
    | mk result t =>
        cases hresult' : s'.validateAndCommitWithKeys txnId readTs commitTs writtenKeys with
        | mk result' t' =>
            rw [hresult, hresult'] at haccepts
            cases result with
            | ok _ =>
                obtain rfl : result' = .ok () := haccepts.mpr rfl
                obtain ⟨set, outbound, hset, _, rfl⟩ := validate_ok hresult
                obtain ⟨set', outbound', hset', _, rfl⟩ := validate_ok hresult'
                obtain rfl : rw = set := Option.some.inj (hrw.symm.trans hset)
                obtain rfl : rw' = set' := Option.some.inj (hrw'.symm.trans hset')
                exact ⟨{ rw with outboundConflicts := outbound },
                  { rw' with outboundConflicts := outbound' },
                  ⟨halike.readKeys, halike.writeKeys, halike.readRanges, halike.inbound⟩,
                  Or.inr ⟨rfl, rfl⟩⟩
            | error e =>
                cases result' with
                | ok _ => exact absurd (haccepts.mp rfl) (by simp)
                | error e' =>
                    obtain ⟨outbound, rfl⟩ := validate_error_of_active hrw hresult
                    obtain ⟨outbound', rfl⟩ := validate_error_of_active hrw' hresult'
                    refine ⟨{ rw with
                        inboundConflicts := rw.inboundConflicts ++
                          s.findInboundConflicts rw txnId readTs commitTs
                        outboundConflicts := outbound },
                      { rw' with
                        inboundConflicts := rw'.inboundConflicts ++
                          s'.findInboundConflicts rw' txnId readTs commitTs
                        outboundConflicts := outbound' },
                      ⟨halike.readKeys, halike.writeKeys, halike.readRanges, ?_⟩,
                      Or.inl ⟨rfl, rfl⟩⟩
                    -- which conflicts there are is no matter, whether there are any is the same
                    show rw'.inboundConflicts ++ _ = [] ↔ rw.inboundConflicts ++ _ = []
                    rw [List.append_eq_nil_iff, List.append_eq_nil_iff, halike.inbound, hfound]

theorem AgreeApart.accepts (h : AgreeApart apart s s') {txnId : ℕ} (hne : txnId ≠ apart)
    (readTs commitTs : ℕ) (writtenKeys : List Bytes) :
    s'.accepts txnId readTs commitTs writtenKeys = s.accepts txnId readTs commitTs writtenKeys := by
  rcases h.lookup_cases hne with ⟨hrw, hrw'⟩ | ⟨rw, rw', hrw, hrw', halike⟩
  · unfold SSIManager.accepts
    rw [validateAndCommitWithKeys, validateAndCommitWithKeys, hrw, hrw']
  · exact (halike.validate_cases writtenKeys hrw hrw'
      (findInboundConflicts_agree h halike txnId readTs commitTs)
      (findsPhantom_agree h halike readTs commitTs)).1

theorem AgreeApart.publish (h : AgreeApart apart s s') {rw rw' : ReadWriteSet}
    (halike : Alike rw rw') {txnId : ℕ} (hne : txnId ≠ apart) (readTs commitTs : ℕ)
    (writtenKeys : List Bytes) : AgreeApart apart
      (s.publish rw txnId readTs commitTs writtenKeys)
      (s'.publish rw' txnId readTs commitTs writtenKeys) where
  active := fun txnId' hne' => rel_lookup_erase fun _ => h.active txnId' hne'
  startTs := fun txnId' hne' => lookup_erase_congr fun _ => h.startTs txnId' hne'
  committed := by
    intro ts
    show (s'.committedTxns.insert commitTs _).lookup ts =
      (s.committedTxns.insert commitTs _).lookup ts
    rw [halike.readKeys, halike.writeKeys, h.startTs txnId hne]
    exact lookup_insert_congr fun _ => h.committed ts
  writers := by
    intro hash
    rw [writersOf_publish, writersOf_publish, h.writers, h.startTs txnId hne, halike.writeKeys]
  watermark := h.watermark

theorem AgreeApart.validate (h : AgreeApart apart s s') {txnId : ℕ} (hne : txnId ≠ apart)
    (readTs commitTs : ℕ) (writtenKeys : List Bytes) : AgreeApart apart
      (s.validateAndCommitWithKeys txnId readTs commitTs writtenKeys).2
      (s'.validateAndCommitWithKeys txnId readTs commitTs writtenKeys).2 := by
  rcases h.lookup_cases hne with ⟨hrw, hrw'⟩ | ⟨rw, rw', hrw, hrw', halike⟩
  · rw [validateAndCommitWithKeys, validateAndCommitWithKeys, hrw, hrw']
    exact h
  · obtain ⟨-, set, set', halike', hcases⟩ := halike.validate_cases writtenKeys hrw hrw'
      (findInboundConflicts_agree h halike txnId readTs commitTs)
      (findsPhantom_agree h halike readTs commitTs)
    have hstill : AgreeApart apart { s with activeTxns := s.activeTxns.insert txnId set }
        { s' with activeTxns := s'.activeTxns.insert txnId set' } :=
      ⟨fun txnId' hne' => rel_lookup_insert halike' fun _ => h.active txnId' hne', h.startTs,
        h.committed, h.writers, h.watermark⟩
    rcases hcases with ⟨hrejected, hrejected'⟩ | ⟨haccepted, haccepted'⟩
    · rw [hrejected, hrejected']
      exact hstill
    · rw [haccepted, haccepted']
      exact hstill.publish halike' hne readTs commitTs writtenKeys

/-- A call of another transaction, or of none. -/
theorem AgreeApart.call (h : AgreeApart apart s s') {call : SsiCall}
    (hcaller : call.caller ≠ some apart) :
    AgreeApart apart (s.call hashKey call) (s'.call hashKey call) := by
  cases call with
  | beginTxnWithTs txnId startTs =>
      exact ⟨fun txnId' hne => rel_lookup_insert (Alike.refl _) fun _ => h.active txnId' hne,
        fun txnId' hne => lookup_insert_congr fun _ => h.startTs txnId' hne, h.committed, h.writers,
        h.watermark⟩
  | beginReadOnlyTxn txnId startTs =>
      exact ⟨h.active, fun txnId' hne => lookup_insert_congr fun _ => h.startTs txnId' hne,
        h.committed, h.writers, h.watermark⟩
  | recordRead txnId key =>
      exact h.amend (fun _ _ halike => halike.recordRead (hashKey key))
        (activeTxns_recordRead hashKey s txnId key) (sameCommits_recordRead hashKey s txnId key)
        (activeTxns_recordRead hashKey s' txnId key) (sameCommits_recordRead hashKey s' txnId key)
  | recordWrite txnId key =>
      exact h.amend (fun _ _ halike => halike.recordWrite (hashKey key))
        (activeTxns_recordWrite hashKey s txnId key) (sameCommits_recordWrite hashKey s txnId key)
        (activeTxns_recordWrite hashKey s' txnId key) (sameCommits_recordWrite hashKey s' txnId key)
  | recordRangeRead txnId start last =>
      exact h.amend (fun _ _ halike => halike.recordRangeRead start last)
        (activeTxns_recordRangeRead s txnId start last)
        (sameCommits_recordRangeRead s txnId start last)
        (activeTxns_recordRangeRead s' txnId start last)
        (sameCommits_recordRangeRead s' txnId start last)
  | validateAndCommitWithKeys txnId readTs commitTs writtenKeys =>
      exact h.validate (fun heq => hcaller (congrArg some heq)) readTs commitTs writtenKeys
  | abortTxn txnId =>
      exact ⟨fun txnId' hne => rel_lookup_erase fun _ => h.active txnId' hne,
        fun txnId' hne => lookup_erase_congr fun _ => h.startTs txnId' hne, h.committed, h.writers,
        h.watermark⟩
  -- a read-only commit takes out the start and nothing else
  | commitReadOnlyTxn txnId =>
      exact ⟨h.active, fun txnId' hne => lookup_erase_congr fun _ => h.startTs txnId' hne,
        h.committed, h.writers, h.watermark⟩
  | advanceWatermark newWatermark => exact h.advanceWatermark newWatermark

/-! ## A run with the transaction and without -/

/-- The verdict of a call, if it asks for one. -/
def verdictOf (s : SSIManager) : SsiCall → Option (ℕ × Bool)
  | .validateAndCommitWithKeys txnId readTs commitTs writtenKeys =>
      some (txnId, s.accepts txnId readTs commitTs writtenKeys)
  | _ => none

variable (hashKey) in
/-- The verdicts in a run, in their order. -/
def verdicts : SSIManager → List SsiCall → List (ℕ × Bool)
  | _, [] => []
  | s, call :: rest => (s.verdictOf call).toList ++ verdicts (s.call hashKey call) rest

theorem AgreeApart.verdictOf (h : AgreeApart apart s s') {call : SsiCall}
    (hcaller : call.caller ≠ some apart) : s'.verdictOf call = s.verdictOf call := by
  cases call with
  | validateAndCommitWithKeys txnId readTs commitTs writtenKeys =>
      have haccepts := h.accepts (fun heq => hcaller (congrArg some heq)) readTs commitTs writtenKeys
      rw [SSIManager.verdictOf, SSIManager.verdictOf, haccepts]
  | _ => rfl

/-- A verdict is about the caller. -/
theorem caller_of_verdictOf {call : SsiCall} {verdict : ℕ × Bool}
    (h : s.verdictOf call = some verdict) : call.caller = some verdict.1 := by
  cases call with
  | validateAndCommitWithKeys txnId readTs commitTs writtenKeys =>
      rw [← Option.some.inj h]
      rfl
  | _ => contradiction

private theorem verdicts_filter_of_agree (h : AgreeApart apart s s') (calls : List SsiCall)
    (hnever : (apart, true) ∉ verdicts hashKey s calls) :
    (verdicts hashKey s calls).filter (fun verdict => verdict.1 ≠ apart) =
      verdicts hashKey s' (calls.filter fun call => call.caller ≠ some apart) := by
  induction calls generalizing s s' with
  | nil => rfl
  | cons call rest ih =>
      rw [verdicts, List.mem_append, not_or] at hnever
      rw [verdicts, List.filter_append]
      by_cases hcaller : call.caller = some apart
      -- its verdicts are left out on the one side, its calls on the other
      · have hown : (s.verdictOf call).toList.filter (fun verdict => verdict.1 ≠ apart) = [] := by
          rw [List.filter_eq_nil_iff]
          intro verdict hmem
          have habout := caller_of_verdictOf (Option.mem_toList.mp hmem)
          simpa [hcaller] using habout.symm
        -- it is never accepted, so what the call changes is its own
        have honly : OnlyAbout apart s (s.call hashKey call) := by
          apply onlyAbout_call hcaller
          rintro readTs commitTs writtenKeys rfl
          rw [← Bool.not_eq_true]
          intro haccepts
          apply hnever.1
          rw [Option.mem_toList, SSIManager.verdictOf, haccepts]
        rw [hown, List.nil_append, List.filter_cons_of_neg (by simp [hcaller])]
        exact ih (h.onlyAbout honly) hnever.2
      -- the verdict of another call is kept
      · have hall : (s.verdictOf call).toList.filter (fun verdict => verdict.1 ≠ apart) =
            (s.verdictOf call).toList := by
          rw [List.filter_eq_self]
          intro verdict hmem
          have habout := caller_of_verdictOf (Option.mem_toList.mp hmem)
          rw [habout, Option.some.injEq] at hcaller
          simpa using hcaller
        rw [hall, List.filter_cons_of_pos (by simpa using hcaller), verdicts,
          h.verdictOf hcaller, ih (h.call hcaller) hnever.2]

/-- Leaving out the calls of a transaction that is never accepted changes no verdict on another
transaction, in any run. -/
theorem verdicts_filter (calls : List SsiCall) (apart : ℕ)
    (hnever : (apart, true) ∉ verdicts hashKey new calls) :
    (verdicts hashKey new calls).filter (fun verdict => verdict.1 ≠ apart) =
      verdicts hashKey new (calls.filter fun call => call.caller ≠ some apart) :=
  verdicts_filter_of_agree (AgreeApart.refl apart new) calls hnever

/-- The first transaction fails and is aborted, with the second under way. -/
def failedAndAborted : List SsiCall :=
  [.beginTxnWithTs 1 1, .beginTxnWithTs 2 2, .beginTxnWithTs 3 3, .recordRead 1 [5],
    .recordWrite 1 [6], .recordRangeRead 2 (.included [1]) (.excluded [9]), .recordWrite 3 [5],
    .validateAndCommitWithKeys 3 3 4 [[5]], .validateAndCommitWithKeys 1 1 5 [[6]],
    .recordRead 2 [6], .abortTxn 1, .validateAndCommit 2 4 6]

theorem verdicts_filter_failedAndAborted :
    (verdicts (fun key => (key.headD 0).toUInt64) new failedAndAborted).filter
        (fun verdict => verdict.1 ≠ 1) =
      verdicts (fun key => (key.headD 0).toUInt64) new
        (failedAndAborted.filter fun call => call.caller ≠ some 1) :=
  verdicts_filter failedAndAborted 1 (by decide)

end SSIManager
end Crabstash

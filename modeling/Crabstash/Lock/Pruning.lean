import Crabstash.Lock.Invisibility

/-!
# Pruning by watermark

`advance_watermark` forgets what was committed before the watermark.  A validation looks only
at what was committed after its read timestamp; if that is not before the watermark less one,
nothing it looks for has been forgotten, and the verdict is the same as without the pruning
(`verdicts_prune`).

Two managers are compared while the run goes on, the second of which has had calls of
`advance_watermark` that the first has not had.  `AgreeFrom w` says that they have the same
commits and index entries from timestamp `w` on, where `w` is the largest of these
watermarks.  Other calls of `advance_watermark` may come in both.  There the watermark of the
second manager is the larger of that of the first and `w`, so that a call which prunes only
the first prunes nothing from `w` on.
-/

namespace Crabstash

/-- A call in both runs, or a pruning that only the second has. -/
inductive PruningCall where
  | call (call : SsiCall)
  | prune (newWatermark : ℕ)
  deriving DecidableEq, Repr

namespace PruningCall

/-- The calls with the pruning. -/
def toCall : PruningCall → SsiCall
  | call c => c
  | prune newWatermark => .advanceWatermark newWatermark

/-- The calls without it. -/
def kept? : PruningCall → Option SsiCall
  | call c => some c
  | prune _ => none

/-- No validation reads before a watermark of the pruning. -/
def Recent (w : ℕ) : SsiCall → Prop
  | .validateAndCommitWithKeys _ readTs _ _ => w ≤ readTs + 1
  | _ => True

instance (w : ℕ) (call : SsiCall) : Decidable (Recent w call) :=
  match call with
  | .validateAndCommitWithKeys _ readTs _ _ => inferInstanceAs (Decidable (w ≤ readTs + 1))
  | .beginTxnWithTs .. => inferInstanceAs (Decidable True)
  | .beginReadOnlyTxn .. => inferInstanceAs (Decidable True)
  | .recordRead .. => inferInstanceAs (Decidable True)
  | .recordWrite .. => inferInstanceAs (Decidable True)
  | .recordRangeRead .. => inferInstanceAs (Decidable True)
  | .abortTxn .. => inferInstanceAs (Decidable True)
  | .commitReadOnlyTxn .. => inferInstanceAs (Decidable True)
  | .advanceWatermark .. => inferInstanceAs (Decidable True)

/-- Every validation is recent when it comes; `w` is the largest watermark so far. -/
def AllRecent : ℕ → List PruningCall → Prop
  | _, [] => True
  | w, call c :: rest => Recent w c ∧ AllRecent w rest
  | w, prune newWatermark :: rest => AllRecent (max w newWatermark) rest

instance AllRecent.instDecidable : ∀ (w : ℕ) (calls : List PruningCall), Decidable (AllRecent w calls)
  | _, [] => inferInstanceAs (Decidable True)
  | w, call c :: rest =>
      have := AllRecent.instDecidable w rest
      inferInstanceAs (Decidable (Recent w c ∧ AllRecent w rest))
  | w, prune newWatermark :: rest => AllRecent.instDecidable (max w newWatermark) rest

end PruningCall

namespace SSIManager

open PruningCall

/-- The index entries of a key from a timestamp on. -/
def writersFrom (s : SSIManager) (w : ℕ) (hash : UInt64) : List WriteIndexEntry :=
  (s.writersOf hash).filter fun entry => w ≤ entry.commitTs

/-- The same from a timestamp on; the second manager has been pruned up to there. -/
structure AgreeFrom (w : ℕ) (s s' : SSIManager) : Prop where
  active : ∀ txnId, Option.Rel Alike (s.activeTxns.lookup txnId) (s'.activeTxns.lookup txnId)
  startTs : ∀ txnId, s'.activeStartTs.lookup txnId = s.activeStartTs.lookup txnId
  committed : ∀ ts, w ≤ ts → s'.committedTxns.lookup ts = s.committedTxns.lookup ts
  writers : ∀ hash, s'.writersFrom w hash = s.writersFrom w hash
  watermark : s'.watermark = max s.watermark w

theorem AgreeFrom.refl (s : SSIManager) : AgreeFrom 0 s s where
  active := by
    intro txnId
    cases s.activeTxns.lookup txnId with
    | none => exact Option.Rel.none
    | some rw => exact Option.Rel.some (Alike.refl rw)
  startTs := fun _ => rfl
  committed := fun _ _ => rfl
  writers := fun _ => rfl
  watermark := (max_eq_left (Nat.zero_le _)).symm

/-! ## Watermarks -/

theorem activeTxns_advanceWatermark (s : SSIManager) (newWatermark : ℕ) :
    (s.advanceWatermark newWatermark).activeTxns = s.activeTxns ∧
      (s.advanceWatermark newWatermark).activeStartTs = s.activeStartTs := by
  unfold advanceWatermark
  split <;> exact ⟨rfl, rfl⟩

theorem watermark_advanceWatermark (s : SSIManager) (newWatermark : ℕ) :
    (s.advanceWatermark newWatermark).watermark = max s.watermark newWatermark := by
  unfold advanceWatermark
  split
  · next hlater => exact (max_eq_right hlater.le).symm
  · next hearlier => exact (max_eq_left (not_lt.mp hearlier)).symm

/-- Of the commits those before the new watermark are gone, if it is new. -/
theorem lookup_advanceWatermark (s : SSIManager) (newWatermark ts : ℕ) :
    (s.advanceWatermark newWatermark).committedTxns.lookup ts =
      if s.watermark < newWatermark ∧ ts < newWatermark then none
      else s.committedTxns.lookup ts := by
  unfold advanceWatermark
  by_cases hlater : s.watermark < newWatermark
  · rw [if_pos hlater]
    show (s.committedTxns.retain _).lookup ts = _
    rw [lookup_retain]
    by_cases hbefore : ts < newWatermark
    · rw [if_pos ⟨hlater, hbefore⟩]
      simp [not_le.mpr hbefore]
    · rw [if_neg fun h => hbefore h.2]
      simp [not_lt.mp hbefore]
  · rw [if_neg hlater, if_neg fun h => hlater h.1]

/-- From the new watermark on, everything stays. -/
theorem lookup_advanceWatermark_of_le (s : SSIManager) {newWatermark ts : ℕ}
    (hle : newWatermark ≤ ts) : (s.advanceWatermark newWatermark).committedTxns.lookup ts =
      s.committedTxns.lookup ts := by
  rw [lookup_advanceWatermark, if_neg fun h => h.2.not_ge hle]

theorem writersFrom_advanceWatermark_of_le (s : SSIManager) {newWatermark w : ℕ}
    (hle : newWatermark ≤ w) (hash : UInt64) :
    (s.advanceWatermark newWatermark).writersFrom w hash = s.writersFrom w hash := by
  unfold writersFrom
  rw [writersOf_advanceWatermark]
  split
  · rw [List.filter_filter]
    apply List.filter_congr
    intro entry _
    by_cases hfrom : w ≤ entry.commitTs
    · simp [hfrom, hle.trans hfrom]
    · simp [hfrom]
  · rfl

/-- Seen from later on, still the same. -/
theorem writersFrom_eq_filter (s : SSIManager) {w w' : ℕ} (hle : w ≤ w') (hash : UInt64) :
    s.writersFrom w' hash = (s.writersFrom w hash).filter fun entry => w' ≤ entry.commitTs := by
  unfold writersFrom
  rw [List.filter_filter]
  apply List.filter_congr
  intro entry _
  by_cases hfrom : w' ≤ entry.commitTs
  · simp [hfrom, hle.trans hfrom]
  · simp [hfrom]

variable {s s' : SSIManager} {w : ℕ}

/-- A pruning in the second manager only. -/
theorem AgreeFrom.prune (h : AgreeFrom w s s') (newWatermark : ℕ) :
    AgreeFrom (max w newWatermark) s (s'.advanceWatermark newWatermark) where
  active := by
    rw [(s'.activeTxns_advanceWatermark newWatermark).1]
    exact h.active
  startTs := by
    rw [(s'.activeTxns_advanceWatermark newWatermark).2]
    exact h.startTs
  committed := by
    intro ts hts
    obtain ⟨hw, hnew⟩ := max_le_iff.mp hts
    rw [s'.lookup_advanceWatermark_of_le hnew, h.committed ts hw]
  writers := by
    intro hash
    rw [s'.writersFrom_advanceWatermark_of_le (le_max_right w newWatermark),
      s'.writersFrom_eq_filter (le_max_left w newWatermark),
      s.writersFrom_eq_filter (le_max_left w newWatermark), h.writers]
  watermark := by rw [watermark_advanceWatermark, h.watermark, max_assoc]

/-- The same call in both: where it prunes only one of them, that is the first, and only what is
not compared any more. -/
theorem AgreeFrom.advanceWatermark (h : AgreeFrom w s s') (newWatermark : ℕ) :
    AgreeFrom w (s.advanceWatermark newWatermark) (s'.advanceWatermark newWatermark) where
  active := by
    rw [(s.activeTxns_advanceWatermark newWatermark).1,
      (s'.activeTxns_advanceWatermark newWatermark).1]
    exact h.active
  startTs := by
    rw [(s.activeTxns_advanceWatermark newWatermark).2,
      (s'.activeTxns_advanceWatermark newWatermark).2]
    exact h.startTs
  committed := by
    intro ts hts
    rw [lookup_advanceWatermark, lookup_advanceWatermark, h.committed ts hts, h.watermark]
    -- what lies before the new watermark and not before `w` is pruned from both
    have hboth : max s.watermark w < newWatermark ∧ ts < newWatermark ↔
        s.watermark < newWatermark ∧ ts < newWatermark := by
      rw [max_lt_iff]
      omega
    exact if_congr hboth rfl rfl
  writers := by
    intro hash
    rcases le_total newWatermark w with hle | hge
    · rw [s.writersFrom_advanceWatermark_of_le hle, s'.writersFrom_advanceWatermark_of_le hle,
        h.writers]
    · rcases hge.eq_or_lt with rfl | hlt
      · rw [s.writersFrom_advanceWatermark_of_le le_rfl,
          s'.writersFrom_advanceWatermark_of_le le_rfl, h.writers]
      · have hsame := h.writers hash
        have hboth : max s.watermark w < newWatermark ↔ s.watermark < newWatermark := by
          rw [max_lt_iff]
          exact and_iff_left hlt
        unfold writersFrom at hsame ⊢
        rw [writersOf_advanceWatermark, writersOf_advanceWatermark, h.watermark]
        simp only [hboth]
        split
        · rw [List.filter_comm, hsame, List.filter_comm]
        · exact hsame
  watermark := by
    rw [watermark_advanceWatermark, watermark_advanceWatermark, h.watermark, max_right_comm]

/-! ## Verdicts -/

/-- A validation that reads no earlier finds the same entries of the index. -/
theorem AgreeFrom.findInboundConflicts (h : AgreeFrom w s s') {rw rw' : ReadWriteSet}
    (halike : Alike rw rw') (txnId : ℕ) {readTs : ℕ} (hrecent : w ≤ readTs + 1) (commitTs : ℕ) :
    s'.findInboundConflicts rw' txnId readTs commitTs = [] ↔
      s.findInboundConflicts rw txnId readTs commitTs = [] := by
  have hfrom : ∀ (s : SSIManager) (hash : UInt64),
      (∀ entry ∈ s.writersOf hash, ¬ (readTs < entry.commitTs ∧ entry.startTs < commitTs)) ↔
        ∀ entry ∈ s.writersFrom w hash,
          ¬ (readTs < entry.commitTs ∧ entry.startTs < commitTs) := by
    intro s hash
    unfold writersFrom
    simp only [List.mem_filter, decide_eq_true_eq]
    constructor
    · exact fun hnone entry hentry => hnone entry hentry.1
    · -- what was committed after the read timestamp is not before `w`
      exact fun hnone entry hentry hboth =>
        hnone entry ⟨hentry, hrecent.trans hboth.1⟩ hboth
  rw [findInboundConflicts_eq_nil_iff, findInboundConflicts_eq_nil_iff, halike.readKeys]
  simp only [hfrom, h.writers]

theorem AgreeFrom.findsPhantom (h : AgreeFrom w s s') {rw rw' : ReadWriteSet}
    (halike : Alike rw rw') {readTs : ℕ} (hrecent : w ≤ readTs + 1) (commitTs : ℕ) :
    s'.FindsPhantom rw' readTs commitTs ↔ s.FindsPhantom rw readTs commitTs := by
  unfold FindsPhantom
  rw [halike.readRanges]
  constructor
  · rintro ⟨ts, txn, hlookup, hread, hrest⟩
    exact ⟨ts, txn, h.committed ts (hrecent.trans hread) ▸ hlookup, hread, hrest⟩
  · rintro ⟨ts, txn, hlookup, hread, hrest⟩
    exact ⟨ts, txn, (h.committed ts (hrecent.trans hread)).trans hlookup, hread, hrest⟩

theorem AgreeFrom.lookup_cases (h : AgreeFrom w s s') (txnId : ℕ) :
    (s.activeTxns.lookup txnId = none ∧ s'.activeTxns.lookup txnId = none) ∨
      ∃ rw rw', s.activeTxns.lookup txnId = some rw ∧ s'.activeTxns.lookup txnId = some rw' ∧
        Alike rw rw' := by
  have hrel := h.active txnId
  generalize s.activeTxns.lookup txnId = before at hrel ⊢
  generalize s'.activeTxns.lookup txnId = before' at hrel ⊢
  cases hrel with
  | none => exact Or.inl ⟨rfl, rfl⟩
  | some halike => exact Or.inr ⟨_, _, rfl, rfl, halike⟩

theorem AgreeFrom.accepts (h : AgreeFrom w s s') (txnId : ℕ) {readTs : ℕ}
    (hrecent : w ≤ readTs + 1) (commitTs : ℕ) (writtenKeys : List Bytes) :
    s'.accepts txnId readTs commitTs writtenKeys = s.accepts txnId readTs commitTs writtenKeys := by
  rcases h.lookup_cases txnId with ⟨hrw, hrw'⟩ | ⟨rw, rw', hrw, hrw', halike⟩
  · unfold SSIManager.accepts
    rw [validateAndCommitWithKeys, validateAndCommitWithKeys, hrw, hrw']
  · exact (halike.validate_cases writtenKeys hrw hrw'
      (h.findInboundConflicts halike txnId hrecent commitTs)
      (h.findsPhantom halike hrecent commitTs)).1

theorem AgreeFrom.publish (h : AgreeFrom w s s') {rw rw' : ReadWriteSet} (halike : Alike rw rw')
    (txnId readTs commitTs : ℕ) (writtenKeys : List Bytes) : AgreeFrom w
      (s.publish rw txnId readTs commitTs writtenKeys)
      (s'.publish rw' txnId readTs commitTs writtenKeys) where
  active := fun txnId' => rel_lookup_erase fun _ => h.active txnId'
  startTs := fun txnId' => lookup_erase_congr fun _ => h.startTs txnId'
  committed := by
    intro ts hts
    show (s'.committedTxns.insert commitTs _).lookup ts =
      (s.committedTxns.insert commitTs _).lookup ts
    rw [halike.readKeys, halike.writeKeys, h.startTs]
    exact lookup_insert_congr fun _ => h.committed ts hts
  writers := by
    intro hash
    have hsame := h.writers hash
    unfold writersFrom at hsame ⊢
    rw [writersOf_publish, writersOf_publish, List.filter_append, List.filter_append, hsame,
      h.startTs, halike.writeKeys]
  watermark := h.watermark

theorem AgreeFrom.validate (h : AgreeFrom w s s') (txnId : ℕ) {readTs : ℕ}
    (hrecent : w ≤ readTs + 1) (commitTs : ℕ) (writtenKeys : List Bytes) : AgreeFrom w
      (s.validateAndCommitWithKeys txnId readTs commitTs writtenKeys).2
      (s'.validateAndCommitWithKeys txnId readTs commitTs writtenKeys).2 := by
  rcases h.lookup_cases txnId with ⟨hrw, hrw'⟩ | ⟨rw, rw', hrw, hrw', halike⟩
  · rw [validateAndCommitWithKeys, validateAndCommitWithKeys, hrw, hrw']
    exact h
  · obtain ⟨-, set, set', halike', hcases⟩ := halike.validate_cases writtenKeys hrw hrw'
      (h.findInboundConflicts halike txnId hrecent commitTs)
      (h.findsPhantom halike hrecent commitTs)
    have hstill : AgreeFrom w { s with activeTxns := s.activeTxns.insert txnId set }
        { s' with activeTxns := s'.activeTxns.insert txnId set' } :=
      ⟨fun txnId' => rel_lookup_insert halike' fun _ => h.active txnId', h.startTs, h.committed,
        h.writers, h.watermark⟩
    rcases hcases with ⟨hrejected, hrejected'⟩ | ⟨haccepted, haccepted'⟩
    · rw [hrejected, hrejected']
      exact hstill
    · rw [haccepted, haccepted']
      exact hstill.publish halike' txnId readTs commitTs writtenKeys

/-- A record in both. -/
theorem AgreeFrom.amend (h : AgreeFrom w s s') {t t' : SSIManager} {txnId : ℕ}
    {f : ReadWriteSet → ReadWriteSet} (hf : ∀ rw rw', Alike rw rw' → Alike (f rw) (f rw'))
    (ht : t.activeTxns = s.activeTxns.amend txnId f) (hsame : s.SameCommits t)
    (ht' : t'.activeTxns = s'.activeTxns.amend txnId f) (hsame' : s'.SameCommits t') :
    AgreeFrom w t t' where
  active := by
    intro txnId'
    rw [ht, ht']
    exact rel_lookup_amend hf (h.active txnId') txnId
  startTs := by
    rw [hsame.activeStartTs, hsame'.activeStartTs]
    exact h.startTs
  committed := by
    rw [hsame.committedTxns, hsame'.committedTxns]
    exact h.committed
  writers := by
    intro hash
    have hwriters := h.writers hash
    unfold writersFrom writersOf at hwriters ⊢
    rw [hsame.writeIndex, hsame'.writeIndex, hwriters]
  watermark := by
    rw [hsame.watermark, hsame'.watermark]
    exact h.watermark

variable {hashKey : Bytes → UInt64}

/-- A call in both. -/
theorem AgreeFrom.call (h : AgreeFrom w s s') {call : SsiCall} (hrecent : Recent w call) :
    AgreeFrom w (s.call hashKey call) (s'.call hashKey call) := by
  cases call with
  | beginTxnWithTs txnId startTs =>
      exact ⟨fun txnId' => rel_lookup_insert (Alike.refl _) fun _ => h.active txnId',
        fun txnId' => lookup_insert_congr fun _ => h.startTs txnId', h.committed, h.writers,
        h.watermark⟩
  | beginReadOnlyTxn txnId startTs =>
      exact ⟨h.active, fun txnId' => lookup_insert_congr fun _ => h.startTs txnId', h.committed,
        h.writers, h.watermark⟩
  | recordRead txnId key =>
      exact h.amend (fun _ _ halike => halike.recordRead (hashKey key))
        (activeTxns_recordRead hashKey s txnId key) (sameCommits_recordRead hashKey s txnId key)
        (activeTxns_recordRead hashKey s' txnId key) (sameCommits_recordRead hashKey s' txnId key)
  | recordWrite txnId key =>
      exact h.amend (fun _ _ halike => halike.recordWrite (hashKey key))
        (activeTxns_recordWrite hashKey s txnId key) (sameCommits_recordWrite hashKey s txnId key)
        (activeTxns_recordWrite hashKey s' txnId key) (sameCommits_recordWrite hashKey s' txnId key)
  | recordRangeRead txnId start last =>
      exact h.amend (fun _ _ halike => halike.recordRangeRead start last)
        (activeTxns_recordRangeRead s txnId start last)
        (sameCommits_recordRangeRead s txnId start last)
        (activeTxns_recordRangeRead s' txnId start last)
        (sameCommits_recordRangeRead s' txnId start last)
  -- the only call whose verdict depends on the pruned commits
  | validateAndCommitWithKeys txnId readTs commitTs writtenKeys =>
      exact h.validate txnId hrecent commitTs writtenKeys
  | abortTxn txnId =>
      exact ⟨fun txnId' => rel_lookup_erase fun _ => h.active txnId',
        fun txnId' => lookup_erase_congr fun _ => h.startTs txnId', h.committed, h.writers,
        h.watermark⟩
  | commitReadOnlyTxn txnId =>
      exact ⟨h.active, fun txnId' => lookup_erase_congr fun _ => h.startTs txnId', h.committed,
        h.writers, h.watermark⟩
  | advanceWatermark newWatermark => exact h.advanceWatermark newWatermark

theorem AgreeFrom.verdictOf (h : AgreeFrom w s s') {call : SsiCall} (hrecent : Recent w call) :
    s'.verdictOf call = s.verdictOf call := by
  cases call with
  | validateAndCommitWithKeys txnId readTs commitTs writtenKeys =>
      rw [SSIManager.verdictOf, SSIManager.verdictOf, h.accepts txnId hrecent]
  | _ => rfl

theorem AgreeFrom.verdicts (h : AgreeFrom w s s') {calls : List PruningCall}
    (hrecent : AllRecent w calls) : verdicts hashKey s' (calls.map toCall) =
      verdicts hashKey s (calls.filterMap kept?) := by
  induction calls generalizing w s s' with
  | nil => rfl
  | cons first rest ih =>
      cases first with
      | call c =>
          have hkept : (PruningCall.call c :: rest).filterMap kept? =
              c :: rest.filterMap kept? := rfl
          rw [hkept, List.map_cons, SSIManager.verdicts, SSIManager.verdicts, toCall,
            h.verdictOf hrecent.1, ih (h.call hrecent.1) hrecent.2]
      | prune newWatermark =>
          have hkept : (PruningCall.prune newWatermark :: rest).filterMap kept? =
              rest.filterMap kept? := rfl
          rw [hkept]
          exact ih (h.prune newWatermark) hrecent

/-- From every state that calls lead to: a later run in which every validation is recent has the
same verdicts with the pruning and without it. -/
theorem verdicts_prune (calls : List SsiCall) (later : List PruningCall)
    (hrecent : AllRecent 0 later) :
    verdicts hashKey (Run.run (call hashKey) new calls) (later.map toCall) =
      verdicts hashKey (Run.run (call hashKey) new calls) (later.filterMap kept?) :=
  (AgreeFrom.refl _).verdicts hrecent

/-- The second transaction reads what the first has written before it began, the third what the
second writes; the watermark goes up to its limit before each validation. -/
def prunedTwice : List PruningCall :=
  [.call (.beginTxnWithTs 2 10), .call (.beginTxnWithTs 3 11), .call (.recordRead 2 [5]),
    .call (.recordWrite 2 [6]), .call (.recordRead 3 [6]), .prune 11,
    .call (.validateAndCommit 2 10 12), .prune 12, .call (.validateAndCommit 3 11 13)]

theorem verdicts_prune_prunedTwice :
    verdicts (fun key => (key.headD 0).toUInt64) (Run.run (call fun key => (key.headD 0).toUInt64)
        new [.beginTxnWithTs 1 1, .recordWrite 1 [5], .validateAndCommit 1 1 9])
        (prunedTwice.map toCall) =
      verdicts (fun key => (key.headD 0).toUInt64) (Run.run (call fun key => (key.headD 0).toUInt64)
        new [.beginTxnWithTs 1 1, .recordWrite 1 [5], .validateAndCommit 1 1 9])
        (prunedTwice.filterMap kept?) :=
  verdicts_prune [.beginTxnWithTs 1 1, .recordWrite 1 [5], .validateAndCommit 1 1 9] prunedTwice
    (by decide)

end SSIManager
end Crabstash

import Crabstash.Lock.SsiSystem

/-!
# Serializability of the accepted transactions

A validation looks for transactions that have overwritten what this one read:
accepted earlier, with a commit timestamp above its start timestamp.  A
transaction that commits below that start timestamp is taken to be in the
snapshot.  But its timestamp was drawn before it was validated, and what it
overwrites may have been read in between; and the reader may even have been
accepted by then, with a larger commit timestamp.

`ValidatesInOrder` excludes this.  When a transaction is validated, everyone who
has read a version that it overwrites must come before it: by the start
timestamp if still undecided, by the commit timestamp if accepted.  Then every
dependency of the accepted transactions goes forward in commit time
(`not_cyclic_run`).  Without it there are cycles (`cyclic_run`).
-/

namespace Crabstash

open Run

namespace TxnLog

/-- The transaction has read a version of a key of `w` that is older than `commitTs`. -/
def Misses (t w : TxnLog) (commitTs : ℕ) : Prop :=
  ∃ r ∈ t.reads, r.1 ∈ w.writes ∧ r.2 < WithBot.some commitTs

instance (t w : TxnLog) (commitTs : ℕ) : Decidable (t.Misses w commitTs) :=
  inferInstanceAs (Decidable (∃ r ∈ t.reads, _))

/-- A transaction that is not accepted yet commits after its start timestamp at the
earliest; a rejected one not at all. -/
def earliest (t : TxnLog) : Option ℕ :=
  match t.status with
  | .running => some t.startTs
  | .committing _ => some t.startTs
  | .accepted commitTs => some commitTs
  | .rejected _ => none

/-- Where the transaction stands in the order of commits, it is in front of the timestamp. -/
def Precedes (t : TxnLog) (commitTs : ℕ) : Prop := ∀ ts ∈ t.earliest, ts < commitTs

instance (t : TxnLog) (commitTs : ℕ) : Decidable (t.Precedes commitTs) :=
  inferInstanceAs (Decidable (∀ ts ∈ t.earliest, _))

/-- The commit timestamp of a transaction that waits to be validated. -/
def drawn (t : TxnLog) : Option ℕ :=
  match t.status with
  | .committing commitTs => some commitTs
  | _ => none

end TxnLog

namespace SsiSystem

/-- No accepted transaction that overlaps with `w` has written a key that `w` read. -/
def Unopposed (s : SsiSystem) (w : TxnLog) (commitTs : ℕ) : Prop :=
  ∀ e ∈ s.txns.entries, ∀ r ∈ w.reads, ∀ ts ∈ e.2.version r.1,
    ¬ (w.startTs < ts ∧ e.2.startTs < commitTs)

/-- Everyone else who has read a version that `w` overwrites precedes it. -/
def Undisturbed (s : SsiSystem) (txnId : ℕ) (w : TxnLog) (commitTs : ℕ) : Prop :=
  ∀ e ∈ s.txns.entries, e.1 ≠ txnId → e.2.Misses w commitTs → e.2.Precedes commitTs

/-- Where a transaction is validated that nothing speaks against, it is undisturbed. -/
def ValidatesInOrder (s : SsiSystem) : SsiStep → Prop
  | .validate txnId => ∀ w ∈ s.txns.lookup txnId, ∀ commitTs ∈ w.drawn,
      s.Unopposed w commitTs → s.Undisturbed txnId w commitTs
  | _ => True

instance (s : SsiSystem) (w : TxnLog) (commitTs : ℕ) : Decidable (s.Unopposed w commitTs) :=
  inferInstanceAs (Decidable (∀ e ∈ s.txns.entries, _))

instance (s : SsiSystem) (txnId : ℕ) (w : TxnLog) (commitTs : ℕ) :
    Decidable (s.Undisturbed txnId w commitTs) :=
  inferInstanceAs (Decidable (∀ e ∈ s.txns.entries, _))

instance (s : SsiSystem) : ∀ step, Decidable (s.ValidatesInOrder step)
  | .validate txnId => inferInstanceAs (Decidable (∀ w ∈ s.txns.lookup txnId, _))
  | .begin _ => inferInstanceAs (Decidable True)
  | .read _ _ => inferInstanceAs (Decidable True)
  | .write _ _ => inferInstanceAs (Decidable True)
  | .drawCommitTs _ => inferInstanceAs (Decidable True)

variable {hashKey : Bytes → UInt64}

/-! ## The invariant -/

/-- The manager knows what an undecided transaction has read and written. -/
structure Tracked (hashKey : Bytes → UInt64) (manager : SSIManager) (txnId : ℕ) (t : TxnLog)
    (rw : ReadWriteSet) : Prop where
  active : manager.activeTxns.lookup txnId = some rw
  startTs : manager.activeStartTs.lookup txnId = some t.startTs
  reads : ∀ r ∈ t.reads, hashKey r.1 ∈ rw.readKeys
  writes : ∀ key ∈ t.writes, hashKey key ∈ rw.writeKeys

/-- No validation has decided about the transaction. -/
def Undecided (t : TxnLog) : Prop := t.status = .running ∨ ∃ commitTs, t.status = .committing commitTs

/-- What holds of every state that is reached in order. -/
structure Ordered (hashKey : Bytes → UInt64) (s : SsiSystem) : Prop where
  started : ∀ txnId t, s.txns.lookup txnId = some t → t.startTs < s.nextTs
  committed : ∀ txnId t commitTs, s.txns.lookup txnId = some t →
    t.status = .committing commitTs ∨ t.status = .accepted commitTs → t.startTs < commitTs
  tracked : ∀ txnId t, s.txns.lookup txnId = some t → Undecided t →
    ∃ rw, Tracked hashKey s.manager txnId t rw
  indexed : ∀ txnId t commitTs, s.txns.lookup txnId = some t → t.status = .accepted commitTs →
    ∀ key ∈ t.writes, ⟨commitTs, t.startTs⟩ ∈ s.manager.writersOf (hashKey key)
  reads : ∀ txnId t, s.txns.lookup txnId = some t → ∀ r ∈ t.reads, r.2 ≤ WithBot.some t.startTs
  precedes : ∀ txnId t txnId' w commitTs, s.txns.lookup txnId = some t →
    s.txns.lookup txnId' = some w → txnId ≠ txnId' → w.status = .accepted commitTs →
      t.Misses w commitTs → t.Precedes commitTs

theorem ordered_init : Ordered hashKey init where
  started := fun _ _ h => absurd h (by simp [init])
  committed := fun _ _ _ h => absurd h (by simp [init])
  tracked := fun _ _ h => absurd h (by simp [init])
  indexed := fun _ _ _ h => absurd h (by simp [init])
  reads := fun _ _ h => absurd h (by simp [init])
  precedes := fun _ _ _ _ _ h => absurd h (by simp [init])

theorem Tracked.of_eq {manager manager' : SSIManager} {txnId : ℕ} {t : TxnLog} {rw : ReadWriteSet}
    (h : Tracked hashKey manager txnId t rw)
    (hactive : manager'.activeTxns.lookup txnId = manager.activeTxns.lookup txnId)
    (hstartTs : manager'.activeStartTs.lookup txnId = manager.activeStartTs.lookup txnId) :
    Tracked hashKey manager' txnId t rw where
  active := hactive.trans h.active
  startTs := hstartTs.trans h.startTs
  reads := h.reads
  writes := h.writes

/-- What has to be checked of the one transaction that a step changes. -/
structure Fits (hashKey : Bytes → UInt64) (s s' : SsiSystem) (txnId : ℕ) (t : TxnLog) : Prop where
  txns : s'.txns = s.txns.insert txnId t
  nextTs : s.nextTs ≤ s'.nextTs
  others : ∀ txnId', txnId' ≠ txnId →
    s'.manager.activeTxns.lookup txnId' = s.manager.activeTxns.lookup txnId' ∧
    s'.manager.activeStartTs.lookup txnId' = s.manager.activeStartTs.lookup txnId'
  index : ∀ hash, s.manager.writersOf hash ⊆ s'.manager.writersOf hash
  started : t.startTs < s'.nextTs
  committed : ∀ commitTs, t.status = .committing commitTs ∨ t.status = .accepted commitTs →
    t.startTs < commitTs
  tracked : Undecided t → ∃ rw, Tracked hashKey s'.manager txnId t rw
  indexed : ∀ commitTs, t.status = .accepted commitTs → ∀ key ∈ t.writes,
    ⟨commitTs, t.startTs⟩ ∈ s'.manager.writersOf (hashKey key)
  reads : ∀ r ∈ t.reads, r.2 ≤ WithBot.some t.startTs
  reader : ∀ txnId' w commitTs, txnId' ≠ txnId → s.txns.lookup txnId' = some w →
    w.status = .accepted commitTs → t.Misses w commitTs → t.Precedes commitTs
  writer : ∀ commitTs, t.status = .accepted commitTs → ∀ txnId' r, txnId' ≠ txnId →
    s.txns.lookup txnId' = some r → r.Misses t commitTs → r.Precedes commitTs

theorem Ordered.of_fits {s s' : SsiSystem} (h : Ordered hashKey s) (txnId : ℕ) (t : TxnLog)
    (hfits : Fits hashKey s s' txnId t) : Ordered hashKey s' := by
  -- only the log of this transaction has changed
  have hlookup : ∀ txnId' t', s'.txns.lookup txnId' = some t' →
      txnId' = txnId ∧ t' = t ∨ txnId' ≠ txnId ∧ s.txns.lookup txnId' = some t' := by
    intro txnId' t' hget
    rw [hfits.txns] at hget
    by_cases hsame : txnId' = txnId
    · subst hsame
      rw [AList.lookup_insert] at hget
      exact Or.inl ⟨rfl, (Option.some.inj hget).symm⟩
    · rw [AList.lookup_insert_ne hsame] at hget
      exact Or.inr ⟨hsame, hget⟩
  refine ⟨?_, ?_, ?_, ?_, ?_, ?_⟩
  · intro txnId' t' hget
    rcases hlookup txnId' t' hget with ⟨rfl, rfl⟩ | ⟨_, hget⟩
    · exact hfits.started
    · exact (h.started txnId' t' hget).trans_le hfits.nextTs
  · intro txnId' t' commitTs hget
    rcases hlookup txnId' t' hget with ⟨rfl, rfl⟩ | ⟨_, hget⟩
    · exact hfits.committed commitTs
    · exact h.committed txnId' t' commitTs hget
  · intro txnId' t' hget hundecided
    rcases hlookup txnId' t' hget with ⟨rfl, rfl⟩ | ⟨hne, hget⟩
    · exact hfits.tracked hundecided
    · obtain ⟨rw, hrw⟩ := h.tracked txnId' t' hget hundecided
      exact ⟨rw, hrw.of_eq (hfits.others txnId' hne).1 (hfits.others txnId' hne).2⟩
  · intro txnId' t' commitTs hget hstatus key hkey
    rcases hlookup txnId' t' hget with ⟨rfl, rfl⟩ | ⟨_, hget⟩
    · exact hfits.indexed commitTs hstatus key hkey
    · exact hfits.index _ (h.indexed txnId' t' commitTs hget hstatus key hkey)
  · intro txnId' t' hget
    rcases hlookup txnId' t' hget with ⟨rfl, rfl⟩ | ⟨_, hget⟩
    · exact hfits.reads
    · exact h.reads txnId' t' hget
  · intro txnId' t' txnId'' w commitTs hget hget' hne hstatus hmisses
    rcases hlookup txnId' t' hget with ⟨rfl, rfl⟩ | ⟨hne', hget⟩
    · rcases hlookup txnId'' w hget' with ⟨rfl, rfl⟩ | ⟨hne'', hget'⟩
      · exact absurd rfl hne
      · exact hfits.reader txnId'' w commitTs hne'' hget' hstatus hmisses
    · rcases hlookup txnId'' w hget' with ⟨rfl, rfl⟩ | ⟨_, hget'⟩
      · exact hfits.writer commitTs hstatus txnId' t' hne' hget hmisses
      · exact h.precedes txnId' t' txnId'' w commitTs hget hget' hne hstatus hmisses

/-! ## The steps -/

/-- A read cannot miss what is accepted and in the snapshot. -/
theorem lt_of_versionAt_lt {s : SsiSystem} {txnId : ℕ} {w : TxnLog} {commitTs startTs : ℕ}
    {key : Bytes} (hget : s.txns.lookup txnId = some w) (hstatus : w.status = .accepted commitTs)
    (hkey : key ∈ w.writes) (hlt : s.versionAt key startTs < WithBot.some commitTs) :
    startTs < commitTs := by
  by_contra hge
  have hentry : Sigma.mk txnId w ∈ s.txns.entries := AList.mem_lookup_iff.mp hget
  have hversion : commitTs ∈ s.versions key startTs := by
    refine List.mem_filterMap.mpr ⟨_, hentry, ?_⟩
    rw [TxnLog.version_eq_some.mpr ⟨hstatus, hkey⟩]
    simpa using not_lt.mp hge
  exact absurd (List.le_maximum_of_mem' hversion) hlt.not_ge

theorem versionAt_le (s : SsiSystem) (key : Bytes) (startTs : ℕ) :
    s.versionAt key startTs ≤ WithBot.some startTs := by
  apply List.maximum_le_of_forall_le
  intro commitTs hmem
  obtain ⟨e, _, he⟩ := List.mem_filterMap.mp hmem
  have hle : commitTs ≤ startTs := by simpa using (Option.filter_eq_some_iff.mp he).2
  exact WithBot.coe_le_coe.mpr hle

theorem Ordered.begin {s : SsiSystem} (h : Ordered hashKey s) (txnId : ℕ) :
    Ordered hashKey
      { manager := s.manager.beginTxnWithTs txnId s.nextTs
        nextTs := s.nextTs + 1
        txns := s.txns.insert txnId ⟨s.nextTs, .running, [], []⟩ } := by
  have hnoReads : ∀ r : Bytes × WithBot ℕ, r ∉ ([] : List (Bytes × WithBot ℕ)) := fun _ =>
    List.not_mem_nil
  apply h.of_fits txnId ⟨s.nextTs, .running, [], []⟩
  refine ⟨rfl, Nat.le_succ _, ?_, fun _ => List.Subset.refl _, Nat.lt_succ_self _, ?_, ?_, ?_, ?_,
    ?_, ?_⟩
  · intro txnId' hne
    exact ⟨AList.lookup_insert_ne hne, AList.lookup_insert_ne hne⟩
  · intro commitTs hstatus
    rcases hstatus with hstatus | hstatus <;> contradiction
  · intro _
    refine ⟨ReadWriteSet.new, AList.lookup_insert _, AList.lookup_insert _, ?_, ?_⟩
    · intro r hr
      exact absurd hr (hnoReads r)
    · intro key hkey
      exact absurd hkey List.not_mem_nil
  · intro commitTs hstatus
    contradiction
  · intro r hr
    exact absurd hr (hnoReads r)
  · rintro txnId' w commitTs _ _ _ ⟨r, hr, _⟩
    exact absurd hr (hnoReads r)
  · intro commitTs hstatus
    contradiction

section Running

variable {s : SsiSystem} {txnId startTs : ℕ} {reads : List (Bytes × WithBot ℕ)}
  {writes : List Bytes}

theorem Ordered.read (h : Ordered hashKey s)
    (hget : s.txns.lookup txnId = some ⟨startTs, .running, reads, writes⟩) (key : Bytes) :
    Ordered hashKey
      { s with
        manager := s.manager.recordRead hashKey txnId key
        txns := s.txns.insert txnId
          ⟨startTs, .running, (key, s.versionAt key startTs) :: reads, writes⟩ } := by
  obtain ⟨rw, htracked⟩ := h.tracked txnId _ hget (Or.inl rfl)
  have hstarted := h.started txnId _ hget
  have hreads := h.reads txnId _ hget
  have hprecedes := fun txnId' w commitTs => h.precedes txnId _ txnId' w commitTs hget
  rw [SSIManager.recordRead_of_active htracked.active]
  apply h.of_fits txnId ⟨startTs, .running, (key, s.versionAt key startTs) :: reads, writes⟩
  refine ⟨rfl, le_rfl, ?_, fun _ => List.Subset.refl _, hstarted, ?_, ?_, ?_, ?_, ?_, ?_⟩
  · intro txnId' hne
    exact ⟨AList.lookup_insert_ne hne, rfl⟩
  · intro commitTs hstatus
    rcases hstatus with hstatus | hstatus <;> contradiction
  · intro _
    refine ⟨rw.recordRead (hashKey key), AList.lookup_insert _, htracked.startTs, ?_,
      htracked.writes⟩
    intro r hr
    rcases List.mem_cons.mp hr with rfl | hr
    · exact List.mem_insert_self
    · exact List.mem_insert_of_mem (htracked.reads r hr)
  · intro commitTs hstatus
    contradiction
  · intro r hr
    rcases List.mem_cons.mp hr with rfl | hr
    · exact s.versionAt_le key startTs
    · exact hreads r hr
  -- the new read too has missed only commits above the start
  · rintro txnId' w commitTs hne hget' hstatus ⟨r, hr, hkey, hlt⟩ ts hts
    obtain rfl : startTs = ts := Option.some.inj hts
    rcases List.mem_cons.mp hr with rfl | hr
    · exact lt_of_versionAt_lt hget' hstatus hkey hlt
    · exact hprecedes txnId' w commitTs hget' (Ne.symm hne) hstatus ⟨r, hr, hkey, hlt⟩ _ rfl
  · intro commitTs hstatus
    contradiction

theorem Ordered.write (h : Ordered hashKey s)
    (hget : s.txns.lookup txnId = some ⟨startTs, .running, reads, writes⟩) (key : Bytes) :
    Ordered hashKey
      { s with
        manager := s.manager.recordWrite hashKey txnId key
        txns := s.txns.insert txnId ⟨startTs, .running, reads, key :: writes⟩ } := by
  obtain ⟨rw, htracked⟩ := h.tracked txnId _ hget (Or.inl rfl)
  have hstarted := h.started txnId _ hget
  have hreads := h.reads txnId _ hget
  have hprecedes := fun txnId' w commitTs => h.precedes txnId _ txnId' w commitTs hget
  rw [SSIManager.recordWrite_of_active htracked.active]
  apply h.of_fits txnId ⟨startTs, .running, reads, key :: writes⟩
  refine ⟨rfl, le_rfl, ?_, fun _ => List.Subset.refl _, hstarted, ?_, ?_, ?_, hreads, ?_, ?_⟩
  · intro txnId' hne
    exact ⟨AList.lookup_insert_ne hne, rfl⟩
  · intro commitTs hstatus
    rcases hstatus with hstatus | hstatus <;> contradiction
  · intro _
    refine ⟨rw.recordWrite (hashKey key), AList.lookup_insert _, htracked.startTs,
      htracked.reads, ?_⟩
    intro key' hkey'
    rcases List.mem_cons.mp hkey' with rfl | hkey'
    · exact List.mem_insert_self
    · exact List.mem_insert_of_mem (htracked.writes key' hkey')
  · intro commitTs hstatus
    contradiction
  · rintro txnId' w commitTs hne hget' hstatus ⟨r, hr, hkey, hlt⟩
    exact hprecedes txnId' w commitTs hget' (Ne.symm hne) hstatus ⟨r, hr, hkey, hlt⟩
  · intro commitTs hstatus
    contradiction

theorem Ordered.drawCommitTs (h : Ordered hashKey s)
    (hget : s.txns.lookup txnId = some ⟨startTs, .running, reads, writes⟩) :
    Ordered hashKey
      { s with
        nextTs := s.nextTs + 1
        txns := s.txns.insert txnId ⟨startTs, .committing s.nextTs, reads, writes⟩ } := by
  have hstarted := h.started txnId _ hget
  have hreads := h.reads txnId _ hget
  have hprecedes := fun txnId' w commitTs => h.precedes txnId _ txnId' w commitTs hget
  obtain ⟨rw, htracked⟩ := h.tracked txnId _ hget (Or.inl rfl)
  apply h.of_fits txnId ⟨startTs, .committing s.nextTs, reads, writes⟩
  refine ⟨rfl, Nat.le_succ _, fun _ _ => ⟨rfl, rfl⟩, fun _ => List.Subset.refl _,
    Nat.lt_succ_of_lt hstarted, ?_, ?_, ?_, hreads, ?_, ?_⟩
  · intro commitTs hstatus
    rcases hstatus with hstatus | hstatus
    · obtain rfl : s.nextTs = commitTs := TxnStatus.committing.inj hstatus
      exact hstarted
    · contradiction
  · intro _
    exact ⟨rw, htracked.active, htracked.startTs, htracked.reads, htracked.writes⟩
  · intro commitTs hstatus
    contradiction
  · rintro txnId' w commitTs hne hget' hstatus ⟨r, hr, hkey, hlt⟩
    exact hprecedes txnId' w commitTs hget' (Ne.symm hne) hstatus ⟨r, hr, hkey, hlt⟩
  · intro commitTs hstatus
    contradiction

end Running

section Committing

variable {s : SsiSystem} {txnId startTs commitTs : ℕ} {reads : List (Bytes × WithBot ℕ)}
  {writes : List Bytes} {manager : SSIManager}

theorem Ordered.reject (h : Ordered hashKey s)
    (hget : s.txns.lookup txnId = some ⟨startTs, .committing commitTs, reads, writes⟩)
    {e : SSIConflict}
    (hvalidate : s.manager.validateAndCommit txnId startTs commitTs = (.error e, manager)) :
    Ordered hashKey
      { s with
        manager
        txns := s.txns.insert txnId ⟨startTs, .rejected commitTs, reads, writes⟩ } := by
  have hstarted := h.started txnId _ hget
  have hreads := h.reads txnId _ hget
  have hmanager : ∃ activeTxns, manager = { s.manager with activeTxns } ∧
      ∀ txnId', txnId' ≠ txnId →
        activeTxns.lookup txnId' = s.manager.activeTxns.lookup txnId' := by
    rcases SSIManager.validate_error hvalidate with rfl | ⟨rw, inbound, outbound, _, rfl⟩
    · exact ⟨_, rfl, fun _ _ => rfl⟩
    · exact ⟨_, rfl, fun _ hne => AList.lookup_insert_ne hne⟩
  obtain ⟨activeTxns, rfl, hothers⟩ := hmanager
  apply h.of_fits txnId ⟨startTs, .rejected commitTs, reads, writes⟩
  refine ⟨rfl, le_rfl, fun txnId' hne => ⟨hothers txnId' hne, rfl⟩,
    fun _ => List.Subset.refl _, hstarted, ?_, ?_, ?_, hreads, ?_, ?_⟩
  · intro ts hstatus
    rcases hstatus with hstatus | hstatus <;> contradiction
  · rintro (hstatus | ⟨_, hstatus⟩) <;> contradiction
  · intro ts hstatus
    contradiction
  · intro txnId' w ts _ _ _ _ ts' hts'
    contradiction
  · intro ts hstatus
    contradiction

/-- Nothing speaks against a transaction that passes the validation. -/
theorem Ordered.unopposed (h : Ordered hashKey s)
    (hget : s.txns.lookup txnId = some ⟨startTs, .committing commitTs, reads, writes⟩)
    {rw : ReadWriteSet} (hactive : s.manager.activeTxns.lookup txnId = some rw)
    (hfound : s.manager.findInboundConflicts rw txnId startTs commitTs = []) :
    s.Unopposed ⟨startTs, .committing commitTs, reads, writes⟩ commitTs := by
  obtain ⟨rw', htracked⟩ := h.tracked txnId _ hget (Or.inr ⟨commitTs, rfl⟩)
  obtain rfl : rw' = rw := Option.some.inj (htracked.active.symm.trans hactive)
  intro e he r hr ts hts
  obtain ⟨hstatus, hkey⟩ := TxnLog.version_eq_some.mp hts
  have hget' : s.txns.lookup e.1 = some e.2 := AList.mem_lookup_iff.mpr he
  have hentry := h.indexed e.1 e.2 ts hget' hstatus r.1 hkey
  exact SSIManager.findInboundConflicts_eq_nil_iff.mp hfound (hashKey r.1)
    (htracked.reads r hr) _ hentry

theorem Ordered.accept (h : Ordered hashKey s)
    (hget : s.txns.lookup txnId = some ⟨startTs, .committing commitTs, reads, writes⟩)
    (hvalidate : s.manager.validateAndCommit txnId startTs commitTs = (.ok (), manager))
    (hundisturbed : s.Unopposed ⟨startTs, .committing commitTs, reads, writes⟩ commitTs →
      s.Undisturbed txnId ⟨startTs, .committing commitTs, reads, writes⟩ commitTs) :
    Ordered hashKey
      { s with
        manager
        txns := s.txns.insert txnId ⟨startTs, .accepted commitTs, reads, writes⟩ } := by
  obtain ⟨rw, outbound, hactive, hfound, rfl⟩ := SSIManager.validate_ok hvalidate
  have hstarted := h.started txnId _ hget
  have hreads := h.reads txnId _ hget
  have hprecedes := fun txnId' w commitTs => h.precedes txnId _ txnId' w commitTs hget
  have hcommitted := h.committed txnId _ commitTs hget (Or.inl rfl)
  have hunopposed := h.unopposed hget hactive hfound
  obtain ⟨rw', htracked⟩ := h.tracked txnId _ hget (Or.inr ⟨commitTs, rfl⟩)
  obtain rfl : rw' = rw := Option.some.inj (htracked.active.symm.trans hactive)
  -- its keys come into the index, and nothing leaves it
  have hwriters : ∀ hash, SSIManager.writersOf _ hash = _ := SSIManager.writersOf_publish
    { s.manager with
      activeTxns := s.manager.activeTxns.insert txnId { rw' with outboundConflicts := outbound } }
    { rw' with outboundConflicts := outbound } txnId startTs commitTs []
  apply h.of_fits txnId ⟨startTs, .accepted commitTs, reads, writes⟩
  refine ⟨rfl, le_rfl, ?_, ?_, hstarted, ?_, ?_, ?_, hreads, ?_, ?_⟩
  · intro txnId' hne
    refine ⟨?_, AList.lookup_erase_ne hne⟩
    calc (AList.erase txnId (s.manager.activeTxns.insert txnId _)).lookup txnId'
        = (s.manager.activeTxns.insert txnId _).lookup txnId' := AList.lookup_erase_ne hne
      _ = s.manager.activeTxns.lookup txnId' := AList.lookup_insert_ne hne
  · intro hash entry hentry
    rw [hwriters hash]
    exact List.mem_append_left _ hentry
  · intro ts hstatus
    rcases hstatus with hstatus | hstatus
    · contradiction
    · obtain rfl : commitTs = ts := TxnStatus.accepted.inj hstatus
      exact hcommitted
  · rintro (hstatus | ⟨_, hstatus⟩) <;> contradiction
  · intro ts hstatus key hkey
    obtain rfl : commitTs = ts := TxnStatus.accepted.inj hstatus
    rw [hwriters (hashKey key)]
    have hcount : 0 < rw'.writeKeys.count (hashKey key) :=
      List.count_pos_iff.mpr (htracked.writes key hkey)
    have hstart : (s.manager.activeStartTs.lookup txnId).getD startTs = startTs := by
      rw [htracked.startTs]
      rfl
    apply List.mem_append_right
    rw [List.mem_replicate]
    exact ⟨hcount.ne', congrArg _ hstart.symm⟩
  · -- whoever has overwritten what it read began after its commit timestamp
    rintro txnId' w ts hne hget' hstatus ⟨r, hr, hkey, hlt⟩ ts' hts'
    obtain rfl : commitTs = ts' := Option.some.inj hts'
    have hstarted : startTs < ts :=
      hprecedes txnId' w ts hget' (Ne.symm hne) hstatus ⟨r, hr, hkey, hlt⟩ _ rfl
    have hnot := hunopposed ⟨txnId', w⟩ (AList.mem_lookup_iff.mp hget') r hr ts
      (TxnLog.version_eq_some.mpr ⟨hstatus, hkey⟩)
    have hle : commitTs ≤ w.startTs := by
      by_contra hlt
      exact hnot ⟨hstarted, not_le.mp hlt⟩
    exact hle.trans_lt (h.committed txnId' w ts hget' (Or.inr hstatus))
  -- the readers of what it overwrites began before it, by hypothesis
  · intro ts hstatus txnId' r hne hget' hmisses
    obtain rfl : commitTs = ts := TxnStatus.accepted.inj hstatus
    exact hundisturbed hunopposed ⟨txnId', r⟩ (AList.mem_lookup_iff.mp hget') hne hmisses

end Committing

theorem Ordered.step {s : SsiSystem} (h : Ordered hashKey s) {action : SsiStep}
    (hinOrder : s.ValidatesInOrder action) : Ordered hashKey (s.step hashKey action) := by
  cases action with
  | begin txnId =>
      rw [SsiSystem.step]
      split
      · exact h
      · exact h.begin txnId
  | read txnId key =>
      rw [SsiSystem.step]
      split
      · next hget => exact h.read hget key
      · exact h
  | write txnId key =>
      rw [SsiSystem.step]
      split
      · next hget => exact h.write hget key
      · exact h
  | drawCommitTs txnId =>
      rw [SsiSystem.step]
      split
      · next hget => exact h.drawCommitTs hget
      · exact h
  | validate txnId =>
      rw [SsiSystem.step]
      split
      · next startTs commitTs reads writes hget =>
          split
          · next hvalidate => exact h.accept hget hvalidate (hinOrder _ hget commitTs rfl)
          · next hvalidate => exact h.reject hget hvalidate
      · exact h

/-! ## No cycles -/

theorem history_commitTs {s : SsiSystem} {txnId : ℕ} {t : TxnLog} {commitTs : ℕ}
    (hget : s.txns.lookup txnId = some t) (hstatus : t.status = .accepted commitTs) :
    s.history.commitTs txnId = commitTs := by
  simp only [history, hget, Option.map_some, hstatus]

theorem Ordered.not_cyclic {s : SsiSystem} (h : Ordered hashKey s) : ¬ s.history.Cyclic := by
  apply History.acyclic
  · rintro txnId key version ⟨t, commitTs, hget, hstatus⟩ ⟨t', hget', hread⟩
    obtain rfl : t = t' := Option.some.inj (hget.symm.trans hget')
    have hle : version ≤ t.startTs := WithBot.coe_le_coe.mp (h.reads txnId t hget _ hread)
    calc version ≤ t.startTs := hle
      _ < commitTs := h.committed txnId t commitTs hget (Or.inr hstatus)
      _ = s.history.commitTs txnId := (history_commitTs hget hstatus).symm
  · rintro txnId txnId' ⟨⟨t, commitTs, hget, hstatus⟩, ⟨w, commitTs', hget', hstatus'⟩, hne, key,
      version, ⟨t', hgetReader, hread⟩, ⟨w', hgetWriter, hwrite⟩, hlt⟩
    obtain rfl : t = t' := Option.some.inj (hget.symm.trans hgetReader)
    obtain rfl : w = w' := Option.some.inj (hget'.symm.trans hgetWriter)
    rw [history_commitTs hget' hstatus'] at hlt
    rw [history_commitTs hget hstatus, history_commitTs hget' hstatus']
    have hearliest : commitTs ∈ t.earliest := by
      rw [TxnLog.earliest, hstatus]
      rfl
    exact h.precedes txnId t txnId' w commitTs' hget hget' hne hstatus' ⟨_, hread, hwrite, hlt⟩ _
      hearliest

/-- In every run in which the validations are in order, the dependencies between accepted
transactions have no cycle. -/
theorem not_cyclic_run (hashKey : Bytes → UInt64) (steps : List SsiStep)
    (hinOrder : Along (step hashKey) ValidatesInOrder init steps) :
    ¬ (run (step hashKey) init steps).history.Cyclic := by
  have hordered : Ordered hashKey (run (step hashKey) init steps) := by
    apply hinOrder.invariant (Ordered hashKey)
    · intro s action hs hstep
      exact hs.step hstep
    · exact ordered_init
  exact hordered.not_cyclic

/-- A hash function for closed runs. -/
def polynomialHash (key : Bytes) : UInt64 :=
  key.foldl (fun hash byte => hash * 31 + byte.toUInt64) 1

/-- A write skew of which one half is rejected, and a third transaction that has read an
overwritten version and is accepted before the overwriting one. -/
theorem not_cyclic_run_writeSkew :
    ¬ (run (step polynomialHash) init
      [.begin 1, .begin 2, .begin 3, .read 1 [1], .read 2 [2], .read 3 [2], .write 1 [2],
        .write 2 [1], .drawCommitTs 3, .validate 3, .drawCommitTs 1, .validate 1, .drawCommitTs 2,
        .validate 2]).history.Cyclic :=
  not_cyclic_run polynomialHash _ (by decide)

/-- One transaction draws its commit timestamp, another begins and reads one key before and
one key after the first is validated: each of them depends on the other. -/
theorem cyclic_run :
    (run (step polynomialHash) init
      [.begin 1, .write 1 [1], .write 1 [2], .drawCommitTs 1, .begin 2, .read 2 [1], .validate 1,
        .read 2 [2], .write 2 [3], .drawCommitTs 2, .validate 2]).history.Cyclic := by
  generalize hs : run (step polynomialHash) init _ = s
  have hfirst : s.txns.lookup 1 = some ⟨1, .accepted 2, [], [[2], [1]]⟩ := by
    rw [← hs]
    rfl
  have hsecond : s.txns.lookup 2 = some ⟨3, .accepted 4, [([2], (2 : ℕ)), ([1], ⊥)], [[3]]⟩ := by
    rw [← hs]
    rfl
  have hcommitTs : s.history.commitTs 1 = 2 := history_commitTs hfirst rfl
  have hreadsFrom : s.history.Depends 1 2 := by
    refine Or.inl ⟨⟨_, _, hfirst, rfl⟩, ⟨_, _, hsecond, rfl⟩, [2], ⟨_, hfirst, by decide⟩, ?_⟩
    rw [hcommitTs]
    exact ⟨_, hsecond, by decide⟩
  have hoverwritten : s.history.Depends 2 1 := by
    refine Or.inr (Or.inr ⟨⟨_, _, hsecond, rfl⟩, ⟨_, _, hfirst, rfl⟩, by decide, [1], ⊥,
      ⟨_, hsecond, by decide⟩, ⟨_, hfirst, by decide⟩, ?_⟩)
    rw [hcommitTs]
    decide
  exact ⟨1, .tail (.single hreadsFrom) hoverwritten⟩

end SsiSystem
end Crabstash

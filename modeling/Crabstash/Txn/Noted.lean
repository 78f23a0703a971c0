import Crabstash.Txn.Registrations

/-!
# What validation knows

What a transaction reads and writes is written down twice: with the transaction itself, and,
if it is serializable, by hash in its set at the `SSIManager`.  The two are written in
separate steps, but the set is first, so that it has everything (`Noted`) for as long as the
manager has the set.

Validation looks into two histories, the write index and the committed transactions of the
`TransactionManager`.  Nothing is ever taken out of them, and a transaction keeps its start
and everything it has read and written (`Grows`).
-/

namespace Crabstash

open Crabstash.Action

namespace SSIManager

/-- The sets that are left have at least what they had. -/
structure Continues (s s' : SSIManager) : Prop where
  active : ∀ txnId rw', s'.activeTxns.lookup txnId = some rw' →
    ∃ rw, s.activeTxns.lookup txnId = some rw ∧ rw.readKeys ⊆ rw'.readKeys ∧
      rw.writeKeys ⊆ rw'.writeKeys
  startTs : ∀ txnId startTs, s'.activeStartTs.lookup txnId = some startTs →
    s.activeStartTs.lookup txnId = some startTs
  writers : ∀ hash, s.writersOf hash ⊆ s'.writersOf hash

section

variable {s s' : SSIManager} {txnId : ℕ}

theorem Continues.refl (s : SSIManager) : Continues s s where
  active := fun _ rw h => ⟨rw, h, List.Subset.refl _, List.Subset.refl _⟩
  startTs := fun _ _ => id
  writers := fun _ => List.Subset.refl _

theorem continues_amend {f : ReadWriteSet → ReadWriteSet}
    (hactive : s'.activeTxns = s.activeTxns.amend txnId f) (hsame : s.SameCommits s')
    (hreads : ∀ rw, rw.readKeys ⊆ (f rw).readKeys)
    (hwrites : ∀ rw, rw.writeKeys ⊆ (f rw).writeKeys) : Continues s s' where
  active := by
    intro other rw' hlookup
    rw [hactive] at hlookup
    by_cases heq : other = txnId
    · subst heq
      rw [lookup_amend_self, Option.map_eq_some_iff] at hlookup
      obtain ⟨rw, hrw, rfl⟩ := hlookup
      exact ⟨rw, hrw, hreads rw, hwrites rw⟩
    · rw [lookup_amend_ne _ _ heq] at hlookup
      exact ⟨rw', hlookup, List.Subset.refl _, List.Subset.refl _⟩
  startTs := by
    intro other startTs
    rw [hsame.activeStartTs]
    exact id
  writers := by
    intro hash
    rw [writersOf, writersOf, hsame.writeIndex]
    exact List.Subset.refl _

theorem continues_recordRead (hashKey : Bytes → UInt64) (s : SSIManager) (txnId : ℕ)
    (key : Bytes) : Continues s (s.recordRead hashKey txnId key) :=
  continues_amend (activeTxns_recordRead hashKey s txnId key)
    (sameCommits_recordRead hashKey s txnId key) (fun _ _ => List.mem_insert_of_mem)
    fun _ => List.Subset.refl _

theorem continues_recordWrite (hashKey : Bytes → UInt64) (s : SSIManager) (txnId : ℕ)
    (key : Bytes) : Continues s (s.recordWrite hashKey txnId key) :=
  continues_amend (activeTxns_recordWrite hashKey s txnId key)
    (sameCommits_recordWrite hashKey s txnId key) (fun _ => List.Subset.refl _)
    fun _ _ => List.mem_insert_of_mem

theorem continues_abortTxn (s : SSIManager) (txnId : ℕ) : Continues s (s.abortTxn txnId) where
  active := fun _ rw h => ⟨rw, lookup_of_erase h, List.Subset.refl _, List.Subset.refl _⟩
  startTs := fun _ _ => lookup_of_erase
  writers := fun _ => List.Subset.refl _

theorem continues_commitReadOnlyTxn (s : SSIManager) (txnId : ℕ) :
    Continues s (s.commitReadOnlyTxn txnId) where
  active := fun _ rw h => ⟨rw, h, List.Subset.refl _, List.Subset.refl _⟩
  startTs := fun _ _ => lookup_of_erase
  writers := fun _ => List.Subset.refl _

theorem continues_validateAndCommit (s : SSIManager) (txnId readTs commitTs : ℕ) :
    Continues s (s.validateAndCommit txnId readTs commitTs).2 := by
  unfold validateAndCommit
  cases hresult : s.validateAndCommitWithKeys txnId readTs commitTs [] with
  | mk result s' =>
      cases result with
      | error e =>
          rcases validate_error hresult with rfl | ⟨rw, inbound, outbound, hrw, rfl⟩
          · exact Continues.refl _
          · refine ⟨fun other rw' hlookup => ?_, fun _ _ => id, fun _ => List.Subset.refl _⟩
            by_cases heq : other = txnId
            · subst heq
              have hlookup : (s.activeTxns.insert other _).lookup other = some rw' := hlookup
              rw [AList.lookup_insert] at hlookup
              rw [← Option.some.inj hlookup]
              exact ⟨rw, hrw, List.Subset.refl _, List.Subset.refl _⟩
            · have hlookup : (s.activeTxns.insert txnId _).lookup other = some rw' := hlookup
              rw [AList.lookup_insert_ne heq] at hlookup
              exact ⟨rw', hlookup, List.Subset.refl _, List.Subset.refl _⟩
      | ok _ =>
          obtain ⟨rw, outbound, hrw, _, rfl⟩ := validate_ok hresult
          refine ⟨fun other rw' hlookup => ?_, fun _ _ => lookup_of_erase, fun hash => ?_⟩
          · have hlookup : ((s.activeTxns.insert txnId _).erase txnId).lookup other =
                some rw' := hlookup
            rw [erase_insert_self] at hlookup
            exact ⟨rw', lookup_of_erase hlookup, List.Subset.refl _, List.Subset.refl _⟩
          · rw [writersOf_publish]
            exact List.subset_append_left _ _

end
end SSIManager

namespace MvccEngine

/-- What a transaction has read and written is in its set, if it has one, and the start it is
registered with is its own. -/
structure NotedTxn (hashKey : Bytes → UInt64) (txn : Transaction) (set : Option ReadWriteSet)
    (registered : Option ℕ) : Prop where
  reads : ∀ rw ∈ set, ∀ key ∈ txn.readSet, hashKey key ∈ rw.readKeys
  writes : ∀ rw ∈ set, ∀ key ∈ txn.writeSet.writeKeys, hashKey key ∈ rw.writeKeys
  startTs : ∀ startTs ∈ registered, startTs = txn.startTs

/-- So it is with every transaction of the engine. -/
def Noted (hashKey : Bytes → UInt64) (s : MvccEngine) : Prop :=
  ∀ txnId txn, s.txns.lookup txnId = some txn →
    NotedTxn hashKey txn (s.ssiManager.activeTxns.lookup txnId)
      (s.ssiManager.activeStartTs.lookup txnId)

/-- Nothing new has been read or written. -/
def SameSets (s s' : MvccEngine) : Prop :=
  ∀ txnId txn', s'.txns.lookup txnId = some txn' → ∃ txn, s.txns.lookup txnId = some txn ∧
    txn'.readSet = txn.readSet ∧ txn'.writeSet = txn.writeSet ∧ txn'.startTs = txn.startTs

/-- The transactions keep their starts and all that they have read and written, and the
histories that validation looks into keep their entries. -/
structure Grows (s s' : MvccEngine) : Prop where
  txns : ∀ txnId txn, s.txns.lookup txnId = some txn → ∃ txn', s'.txns.lookup txnId = some txn' ∧
    txn'.startTs = txn.startTs ∧ txn'.isolation = txn.isolation ∧ txn.readSet ⊆ txn'.readSet ∧
      txn.writeSet.writeKeys ⊆ txn'.writeSet.writeKeys
  writers : ∀ hash, s.ssiManager.writersOf hash ⊆ s'.ssiManager.writersOf hash
  committed : s.txnManager.committedTxns ⊆ s'.txnManager.committedTxns

section

variable {hashKey : Bytes → UInt64} {s s' : MvccEngine} {txn : Transaction}

theorem noted_new (storage : Lsm) : (new storage).Noted hashKey := by
  intro txnId txn hlookup
  contradiction

theorem Noted.of_same (h : s.Noted hashKey) (htxns : SameSets s s')
    (hssi : s.ssiManager.Continues s'.ssiManager) : s'.Noted hashKey := by
  intro txnId txn' hlookup'
  obtain ⟨txn, hlookup, hreadSet, hwriteSet, hstartTs⟩ := htxns txnId txn' hlookup'
  have hnoted := h txnId txn hlookup
  refine ⟨fun rw' hactive' key hkey => ?_, fun rw' hactive' key hkey => ?_,
    fun startTs hstart' => ?_⟩
  · obtain ⟨rw, hactive, hreads, -⟩ := hssi.active txnId rw' hactive'
    exact hreads (hnoted.reads rw hactive key (hreadSet ▸ hkey))
  · obtain ⟨rw, hactive, -, hwrites⟩ := hssi.active txnId rw' hactive'
    exact hwrites (hnoted.writes rw hactive key (hwriteSet ▸ hkey))
  · rw [hstartTs]
    exact hnoted.startTs startTs (hssi.startTs txnId startTs hstart')

theorem sameSets_of_eq (h : s'.txns = s.txns) : SameSets s s' := by
  intro txnId txn' hlookup
  rw [h] at hlookup
  exact ⟨txn', hlookup, rfl, rfl, rfl⟩

theorem sameSets_insert {txn' : Transaction} (hlookup : s.txns.lookup txn.id = some txn)
    (htxns : s'.txns = s.txns.insert txn.id txn') (hreadSet : txn'.readSet = txn.readSet)
    (hwriteSet : txn'.writeSet = txn.writeSet) (hstartTs : txn'.startTs = txn.startTs) :
    SameSets s s' := by
  intro txnId txn'' hlookup'
  rw [htxns] at hlookup'
  by_cases heq : txnId = txn.id
  · rw [heq, AList.lookup_insert] at hlookup'
    rw [heq, ← Option.some.inj hlookup']
    exact ⟨txn, hlookup, hreadSet, hwriteSet, hstartTs⟩
  · rw [AList.lookup_insert_ne heq] at hlookup'
    exact ⟨txn'', hlookup', rfl, rfl, rfl⟩

/-! ## What grows -/

theorem Grows.refl (s : MvccEngine) : Grows s s where
  txns := fun _ txn h => ⟨txn, h, rfl, rfl, List.Subset.refl _, List.Subset.refl _⟩
  writers := fun _ => List.Subset.refl _
  committed := List.Subset.refl _

theorem grows_of_eq (htxns : s'.txns = s.txns)
    (hssi : s.ssiManager.Continues s'.ssiManager)
    (hcommitted : s.txnManager.committedTxns ⊆ s'.txnManager.committedTxns) : Grows s s' where
  txns := fun _ txn h => ⟨txn, htxns ▸ h, rfl, rfl, List.Subset.refl _, List.Subset.refl _⟩
  writers := hssi.writers
  committed := hcommitted

theorem grows_insert {txn' : Transaction} (hlookup : s.txns.lookup txn.id = some txn)
    (htxns : s'.txns = s.txns.insert txn.id txn') (hstartTs : txn'.startTs = txn.startTs)
    (hisolation : txn'.isolation = txn.isolation) (hreads : txn.readSet ⊆ txn'.readSet)
    (hwrites : txn.writeSet.writeKeys ⊆ txn'.writeSet.writeKeys)
    (hssi : s.ssiManager.Continues s'.ssiManager)
    (hcommitted : s.txnManager.committedTxns ⊆ s'.txnManager.committedTxns) : Grows s s' where
  txns := by
    intro txnId txn₀ hlookup₀
    rw [htxns]
    by_cases heq : txnId = txn.id
    · rw [heq, hlookup] at hlookup₀
      obtain rfl := Option.some.inj hlookup₀
      rw [heq, AList.lookup_insert]
      exact ⟨txn', rfl, hstartTs, hisolation, hreads, hwrites⟩
    · rw [AList.lookup_insert_ne heq]
      exact ⟨txn₀, hlookup₀, rfl, rfl, List.Subset.refl _, List.Subset.refl _⟩
  writers := hssi.writers
  committed := hcommitted

/-! ## The methods -/

/-- Nothing is read or written, and everything is kept. -/
structure Continues (s s' : MvccEngine) : Prop where
  sets : SameSets s s'
  ssi : s.ssiManager.Continues s'.ssiManager
  grows : Grows s s'

theorem Continues.refl (s : MvccEngine) : Continues s s :=
  ⟨sameSets_of_eq rfl, SSIManager.Continues.refl _, Grows.refl s⟩

theorem Noted.continues (h : s.Noted hashKey) (hcontinues : Continues s s') : s'.Noted hashKey :=
  h.of_same hcontinues.sets hcontinues.ssi

/-- Only the `SSIManager` changes, or what has nothing to do with validation. -/
theorem continues_of_eq (htxns : s'.txns = s.txns)
    (hssi : s.ssiManager.Continues s'.ssiManager)
    (hcommitted : s'.txnManager.committedTxns = s.txnManager.committedTxns) : Continues s s' :=
  ⟨sameSets_of_eq htxns, hssi, grows_of_eq htxns hssi (hcommitted ▸ List.Subset.refl _)⟩

/-- The commit timestamp or the state of a transaction changes. -/
theorem continues_insert {txn' : Transaction} (hlookup : s.txns.lookup txn.id = some txn)
    (htxns : s'.txns = s.txns.insert txn.id txn') (hreadSet : txn'.readSet = txn.readSet)
    (hwriteSet : txn'.writeSet = txn.writeSet) (hstartTs : txn'.startTs = txn.startTs)
    (hisolation : txn'.isolation = txn.isolation)
    (hssi : s.ssiManager.Continues s'.ssiManager)
    (hcommitted : s.txnManager.committedTxns ⊆ s'.txnManager.committedTxns) : Continues s s' :=
  ⟨sameSets_insert hlookup htxns hreadSet hwriteSet hstartTs, hssi,
    grows_insert hlookup htxns hstartTs hisolation (hreadSet ▸ List.Subset.refl _)
      (hwriteSet ▸ List.Subset.refl _) hssi hcommitted⟩

theorem continues_recordWrite (s : MvccEngine) (txnId : ℕ) (isolation : IsolationLevel)
    (key : Bytes) : Continues s (s.recordWrite hashKey txnId isolation key) := by
  unfold recordWrite
  split
  · exact continues_of_eq rfl (SSIManager.continues_recordWrite hashKey _ txnId key) rfl
  · exact Continues.refl s

theorem continues_managerAbort (hlookup : s.txns.lookup txn.id = some txn) :
    Continues s (s.managerAbort txn) :=
  continues_insert hlookup rfl rfl rfl rfl rfl (SSIManager.Continues.refl _)
    (List.Subset.refl s.txnManager.committedTxns)

theorem continues_ssiAbort (s : MvccEngine) (txnId : ℕ) (isolation : IsolationLevel) :
    Continues s (s.ssiAbort txnId isolation) := by
  unfold ssiAbort
  split
  · exact continues_of_eq rfl (SSIManager.continues_abortTxn _ txnId) rfl
  · exact Continues.refl s

theorem continues_managerCommit (hlookup : s.txns.lookup txn.id = some txn) :
    Continues s (exec (managerCommit txn) s).2 := by
  rw [exec_managerCommit]
  cases hcommit : s.txnManager.commit txn with
  | error e => exact Continues.refl s
  | ok result =>
      obtain ⟨txnManager, txn'⟩ := result
      obtain ⟨_, _, rfl⟩ := TransactionManager.commit_ok hcommit
      have hcommitted : s.txnManager.committedTxns ⊆ txnManager.committedTxns := by
        unfold TransactionManager.commit at hcommit
        split at hcommit
        · contradiction
        · split at hcommit
          · contradiction
          · rw [← (Prod.mk.inj (Except.ok.inj hcommit)).1]
            exact List.subset_append_left _ _
      exact continues_insert hlookup rfl rfl rfl rfl rfl (SSIManager.Continues.refl _) hcommitted

theorem Continues.trans {s'' : MvccEngine} (h : Continues s s') (h' : Continues s' s'') :
    Continues s s'' where
  sets := by
    intro txnId txn'' hlookup''
    obtain ⟨txn', hlookup', hreadSet', hwriteSet', hstartTs'⟩ := h'.sets txnId txn'' hlookup''
    obtain ⟨txn, hlookup, hreadSet, hwriteSet, hstartTs⟩ := h.sets txnId txn' hlookup'
    exact ⟨txn, hlookup, hreadSet'.trans hreadSet, hwriteSet'.trans hwriteSet,
      hstartTs'.trans hstartTs⟩
  ssi := by
    refine ⟨?_, ?_, fun hash => List.Subset.trans (h.ssi.writers hash) (h'.ssi.writers hash)⟩
    · intro txnId rw'' hlookup''
      obtain ⟨rw', hlookup', hreads', hwrites'⟩ := h'.ssi.active txnId rw'' hlookup''
      obtain ⟨rw, hlookup, hreads, hwrites⟩ := h.ssi.active txnId rw' hlookup'
      exact ⟨rw, hlookup, List.Subset.trans hreads hreads', List.Subset.trans hwrites hwrites'⟩
    · exact fun txnId startTs hlookup => h.ssi.startTs _ _ (h'.ssi.startTs _ _ hlookup)
  grows := by
    refine ⟨?_, fun hash => List.Subset.trans (h.grows.writers hash) (h'.grows.writers hash),
      List.Subset.trans h.grows.committed h'.grows.committed⟩
    intro txnId txn hlookup
    obtain ⟨txn', hlookup', hstartTs, hisolation, hreads, hwrites⟩ := h.grows.txns txnId txn hlookup
    obtain ⟨txn'', hlookup'', hstartTs', hisolation', hreads', hwrites'⟩ :=
      h'.grows.txns txnId txn' hlookup'
    exact ⟨txn'', hlookup'', hstartTs'.trans hstartTs, hisolation'.trans hisolation,
      List.Subset.trans hreads hreads', List.Subset.trans hwrites hwrites'⟩

theorem continues_commitReadOnly (hlookup : s.txns.lookup txn.id = some txn) :
    Continues s (exec (commitReadOnly txn) s).2 := by
  have hcommit := continues_managerCommit hlookup
  obtain hsame | ⟨-, htold⟩ := commitReadOnly_cases s txn
  · rw [hsame]
    exact hcommit
  · rw [htold]
    apply hcommit.trans
    exact continues_of_eq rfl (SSIManager.continues_commitReadOnlyTxn _ txn.id) rfl

theorem continues_commitStep (faults : Faults IoCall) (order : IterOrder)
    (hlookup : s.txns.lookup txn.id = some txn) (progress : CommitProgress) :
    Continues s (exec (commitStep faults order txn progress) s).2 := by
  have hpart := commitStep_part faults order s txn progress
  generalize exec (commitStep faults order txn progress) s = result at hpart ⊢
  cases hpart with
  | readOnly => exact continues_commitReadOnly hlookup
  | validates commitTs hserializable =>
      rw [exec_validateSsi s commitTs hserializable]
      exact continues_of_eq rfl (SSIManager.continues_validateAndCommit _ _ _ _) rfl
  | prepares =>
      exact continues_insert hlookup rfl rfl rfl rfl rfl (SSIManager.Continues.refl _)
        (List.Subset.refl s.txnManager.committedTxns)
  | finishes => exact continues_managerCommit hlookup
  | _ => exact continues_of_eq rfl (SSIManager.Continues.refl _) rfl

/-! ## Reads, writes and beginnings -/

theorem grows_get (hlookup : s.txns.lookup txn.id = some txn) (key : Bytes) :
    Grows s (s.get hashKey txn key).2 := by
  unfold get
  split
  · exact Grows.refl s
  · have hrecord : (txn.recordRead key).id = txn.id ∧
        (txn.recordRead key).startTs = txn.startTs ∧
        (txn.recordRead key).isolation = txn.isolation ∧
        txn.readSet ⊆ (txn.recordRead key).readSet ∧
        (txn.recordRead key).writeSet = txn.writeSet := by
      unfold Transaction.recordRead
      split
      · exact ⟨rfl, rfl, rfl, fun _ => List.mem_insert_of_mem, rfl⟩
      · exact ⟨rfl, rfl, rfl, List.Subset.refl _, rfl⟩
    obtain ⟨hid, hstartTs, hisolation, hreads, hwriteSet⟩ := hrecord
    refine grows_insert hlookup ?_ hstartTs hisolation hreads ?_ ?_ (List.Subset.refl _)
    · rw [← hid]
      rfl
    · rw [hwriteSet]
      exact List.Subset.refl _
    · show SSIManager.Continues s.ssiManager (if txn.isolation = .serializable then
        s.ssiManager.recordRead hashKey txn.id key else s.ssiManager)
      split
      · exact SSIManager.continues_recordRead hashKey _ _ key
      · exact SSIManager.Continues.refl _

theorem grows_storeWrite (hlookup : s.txns.lookup txn.id = some txn) (op : BatchOperation) :
    Grows s (s.storeWrite txn op) := by
  refine grows_insert hlookup rfl rfl rfl (List.Subset.refl _) ?_ (SSIManager.Continues.refl _)
    (List.Subset.refl _)
  intro key hkey
  exact WriteSet.mem_writeKeys_apply.mpr (Or.inr hkey)

/-- One transaction changes, with its set; the others keep what they have. -/
theorem Noted.insert (h : s.Noted hashKey) {txn' : Transaction} {txnId : ℕ}
    (htxns : s'.txns = s.txns.insert txnId txn')
    (hself : NotedTxn hashKey txn' (s'.ssiManager.activeTxns.lookup txnId)
      (s'.ssiManager.activeStartTs.lookup txnId))
    (hothers : ∀ other, other ≠ txnId →
      s'.ssiManager.activeTxns.lookup other = s.ssiManager.activeTxns.lookup other ∧
        s'.ssiManager.activeStartTs.lookup other = s.ssiManager.activeStartTs.lookup other) :
    s'.Noted hashKey := by
  intro other txn'' hlookup
  rw [htxns] at hlookup
  by_cases heq : other = txnId
  · subst heq
    rw [AList.lookup_insert] at hlookup
    rw [← Option.some.inj hlookup]
    exact hself
  · rw [AList.lookup_insert_ne heq] at hlookup
    rw [(hothers other heq).1, (hothers other heq).2]
    exact h other txn'' hlookup

theorem Noted.storeWrite (h : s.Noted hashKey) (hlookup : s.txns.lookup txn.id = some txn)
    {op : BatchOperation} (hrecorded : ∀ rw, s.ssiManager.activeTxns.lookup txn.id = some rw →
      hashKey op.key ∈ rw.writeKeys) : (s.storeWrite txn op).Noted hashKey := by
  have hnoted := h txn.id txn hlookup
  refine h.insert rfl ⟨hnoted.reads, fun rw hactive key hkey => ?_, hnoted.startTs⟩
    fun _ _ => ⟨rfl, rfl⟩
  rcases WriteSet.mem_writeKeys_apply.mp hkey with rfl | hkey
  · exact hrecorded rw hactive
  · exact hnoted.writes rw hactive key hkey

theorem Noted.get (h : s.Noted hashKey) (hlookup : s.txns.lookup txn.id = some txn) (key : Bytes) :
    (s.get hashKey txn key).2.Noted hashKey := by
  unfold MvccEngine.get
  split
  · exact h
  · by_cases hserializable : txn.isolation = .serializable
    · -- the set of the manager has the key before the transaction does
      have hnoted := h txn.id txn hlookup
      have hset : txn.recordRead key = { txn with readSet := txn.readSet.insert key } := by
        unfold Transaction.recordRead
        rw [hserializable]
        rfl
      have hstart := (SSIManager.sameCommits_recordRead hashKey s.ssiManager txn.id key).activeStartTs
      have hactiveTxns := SSIManager.activeTxns_recordRead hashKey s.ssiManager txn.id key
      rw [if_pos hserializable, hset]
      refine h.insert rfl ⟨fun rw' hactive key' hkey' => ?_, fun rw' hactive key' hkey' => ?_,
        fun startTs hregistered => ?_⟩ fun other hne => ⟨?_, ?_⟩
      · have hactive : rw' ∈ (s.ssiManager.recordRead hashKey txn.id key).activeTxns.lookup txn.id :=
          hactive
        rw [hactiveTxns, lookup_amend_self] at hactive
        obtain ⟨rw, hrw, rfl⟩ := Option.mem_map.mp hactive
        rcases List.mem_insert_iff.mp hkey' with rfl | hkey'
        · exact List.mem_insert_self
        · exact List.mem_insert_of_mem (hnoted.reads rw hrw key' hkey')
      · have hactive : rw' ∈ (s.ssiManager.recordRead hashKey txn.id key).activeTxns.lookup txn.id :=
          hactive
        rw [hactiveTxns, lookup_amend_self] at hactive
        obtain ⟨rw, hrw, rfl⟩ := Option.mem_map.mp hactive
        exact hnoted.writes rw hrw key' hkey'
      · have hregistered : startTs ∈
            (s.ssiManager.recordRead hashKey txn.id key).activeStartTs.lookup txn.id := hregistered
        rw [hstart] at hregistered
        exact hnoted.startTs startTs hregistered
      · show (s.ssiManager.recordRead hashKey txn.id key).activeTxns.lookup other = _
        rw [hactiveTxns, lookup_amend_ne _ _ hne]
      · show (s.ssiManager.recordRead hashKey txn.id key).activeStartTs.lookup other = _
        rw [hstart]
    -- the other levels keep no read set
    · have hset : txn.recordRead key = txn := by
        unfold Transaction.recordRead
        revert hserializable
        cases txn.isolation <;> intro hserializable
        · rfl
        · exact absurd rfl hserializable
        · rfl
        · rfl
      rw [if_neg hserializable, hset]
      exact h.of_same (sameSets_insert hlookup rfl rfl rfl rfl) (SSIManager.Continues.refl _)

theorem grows_register {txnId : ℕ} (hnone : s.txns.lookup txnId = none) (isolation : IsolationLevel)
    (startTs : ℕ) : Grows s (s.register isolation txnId startTs) := by
  refine ⟨fun other txn hlookup => ?_, fun hash => ?_, List.Subset.refl s.txnManager.committedTxns⟩
  · have hne : other ≠ txnId := by
      rintro rfl
      rw [hnone] at hlookup
      contradiction
    refine ⟨txn, ?_, rfl, rfl, List.Subset.refl _, List.Subset.refl _⟩
    exact (AList.lookup_insert_ne hne).trans hlookup
  · have hindex : (s.register isolation txnId startTs).ssiManager.writeIndex =
        s.ssiManager.writeIndex := by
      show (if isolation.isSerializable then _ else _ : SSIManager).writeIndex = _
      split
      · split <;> rfl
      · rfl
    rw [SSIManager.writersOf, SSIManager.writersOf, hindex]
    exact List.Subset.refl _

theorem Noted.register (h : s.Noted hashKey) (hregistered : s.Registered) {txnId : ℕ}
    (hnone : s.txns.lookup txnId = none) (isolation : IsolationLevel) (startTs : ℕ) :
    (s.register isolation txnId startTs).Noted hashKey := by
  have hstarts : s.ssiManager.activeStartTs.lookup txnId = none := by
    by_contra hsome
    obtain ⟨startTs', hsome⟩ := Option.ne_none_iff_exists'.mp hsome
    obtain ⟨txn, hlookup, _⟩ := hregistered.activeStartTs txnId startTs' hsome
    rw [hnone] at hlookup
    contradiction
  refine h.insert rfl ⟨fun rw _ key hkey => absurd hkey List.not_mem_nil,
    fun rw _ key hkey => absurd hkey List.not_mem_nil, fun startTs' hregistered' => ?_⟩
    fun other hne => ?_
  · have hmem : startTs' ∈ (if isolation.isSerializable then
        if isolation.isReadOnly then s.ssiManager.beginReadOnlyTxn txnId startTs
        else s.ssiManager.beginTxnWithTs txnId startTs
      else s.ssiManager).activeStartTs.lookup txnId := hregistered'
    have hinserted : (s.ssiManager.activeStartTs.insert txnId startTs).lookup txnId =
        some startTs := AList.lookup_insert _
    split at hmem
    · split at hmem
      · exact (Option.some.inj (hinserted.symm.trans hmem)).symm
      · exact (Option.some.inj (hinserted.symm.trans hmem)).symm
    · rw [hstarts] at hmem
      contradiction
  · show (if isolation.isSerializable then _ else _ : SSIManager).activeTxns.lookup other = _ ∧
      (if isolation.isSerializable then _ else _ : SSIManager).activeStartTs.lookup other = _
    split
    · split
      · exact ⟨rfl, AList.lookup_insert_ne hne⟩
      · exact ⟨AList.lookup_insert_ne hne, AList.lookup_insert_ne hne⟩
    · exact ⟨rfl, rfl⟩

/-! ## What validation finds -/

/-- The write index has an overlapping writer for a key that was read. -/
def IndexConflict (hashKey : Bytes → UInt64) (s : MvccEngine) (txn : Transaction) (commitTs : ℕ) :
    Prop :=
  ∃ key ∈ txn.readSet, ∃ entry ∈ s.ssiManager.writersOf (hashKey key),
    txn.startTs < entry.commitTs ∧ entry.startTs < commitTs

/-- An overlapping committed transaction has written a key that was read. -/
def RecordConflict (s : MvccEngine) (txn : Transaction) (commitTs : ℕ) : Prop :=
  ∃ record ∈ s.txnManager.committedTxns, txn.startTs < record.commitTs ∧
    record.startTs < commitTs ∧ ∃ key ∈ txn.readSet, key ∈ record.writeKeys

/-- The `SSIManager` accepts a transaction without conflicts in the index, and enters what it
has written. -/
theorem of_validateSsi_ok (h : s.Noted hashKey) (hlookup : s.txns.lookup txn.id = some txn)
    (hserializable : txn.isolation = .serializable) {commitTs : ℕ}
    (hok : (exec (validateSsi txn commitTs) s).1 = .ok ()) :
    ¬ s.IndexConflict hashKey txn commitTs ∧ ∀ key ∈ txn.writeSet.writeKeys,
      ⟨commitTs, txn.startTs⟩ ∈
        (exec (validateSsi txn commitTs) s).2.ssiManager.writersOf (hashKey key) := by
  rw [exec_validateSsi s commitTs hserializable] at hok ⊢
  have hnoted := h txn.id txn hlookup
  cases hresult : s.ssiManager.validateAndCommit txn.id txn.startTs commitTs with
  | mk result ssiManager =>
      rw [hresult] at hok
      cases result with
      | error e => contradiction
      | ok _ =>
          obtain ⟨rw, outbound, hrw, hfound, rfl⟩ := SSIManager.validate_ok hresult
          rw [SSIManager.findInboundConflicts_eq_nil_iff] at hfound
          refine ⟨?_, fun key hkey => ?_⟩
          · rintro ⟨key, hkey, entry, hentry, hoverlap⟩
            exact hfound _ (hnoted.reads rw hrw key hkey) entry hentry hoverlap
          · have hstart : ((s.ssiManager.activeStartTs.lookup txn.id).getD txn.startTs) =
                txn.startTs := by
              cases hregistered : s.ssiManager.activeStartTs.lookup txn.id with
              | none => rfl
              | some startTs => exact hnoted.startTs startTs hregistered
            have hwritten := hnoted.writes rw hrw key hkey
            show _ ∈ SSIManager.writersOf (SSIManager.publish _ _ _ _ _ _) _
            rw [SSIManager.writersOf_publish, List.mem_append, List.mem_replicate]
            exact Or.inr ⟨(List.count_pos_iff.mpr hwritten).ne', by rw [hstart]⟩

/-- The `TransactionManager` accepts a transaction without conflicts among the committed. -/
theorem not_recordConflict_of_ok {commitTs : ℕ} (hserializable : txn.isolation = .serializable)
    {txn' : Transaction} (hok : s.txnManager.prepareCommit txn commitTs = .ok txn') :
    ¬ s.RecordConflict txn commitTs := by
  rintro ⟨record, hrecord, hread, hcommit, key, hkey, hwritten⟩
  have hconflict : s.txnManager.validateSerializable txn commitTs = .error .transactionConflict := by
    unfold TransactionManager.validateSerializable
    rw [if_pos]
    rw [List.any_eq_true]
    refine ⟨record, hrecord, ?_⟩
    simp only [hread, hcommit, decide_true, Bool.true_and, List.any_eq_true]
    exact ⟨key, hkey, List.contains_iff_mem.mpr hwritten⟩
  rw [TransactionManager.prepareCommit, if_pos hserializable, hconflict] at hok
  contradiction

/-- A transaction that is committed comes into the history with all its keys. -/
theorem of_managerCommit_ok (hok : (exec (managerCommit txn) s).1 = .ok ()) :
    ∃ commitTs, txn.commitTs = some commitTs ∧
      ⟨commitTs, txn.startTs, txn.writeSet.writeKeys⟩ ∈
        (exec (managerCommit txn) s).2.txnManager.committedTxns := by
  rw [exec_managerCommit] at hok ⊢
  cases hcommit : s.txnManager.commit txn with
  | error e =>
      rw [hcommit] at hok
      contradiction
  | ok result =>
      unfold TransactionManager.commit at hcommit
      split at hcommit
      · contradiction
      · split at hcommit
        · contradiction
        · next commitTs hcommitTs =>
            obtain rfl := Except.ok.inj hcommit
            exact ⟨commitTs, hcommitTs, List.mem_append_right _ List.mem_cons_self⟩

end
end MvccEngine
end Crabstash

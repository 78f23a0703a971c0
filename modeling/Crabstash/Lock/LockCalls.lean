import Crabstash.Lock.LockTable

/-!
# Calls of the lock table

The calls that an engine makes: `register_txn`, `lock_key` in mode `X` for one key, and
`release_all`.  Each passes through steps of its own, and only some of them change who holds
what: registering none, locking can only add, releasing can only take away.

When all locks are taken in mode `X`, a transaction that holds a key holds it in `X`
(`OnlyX`), and so nobody else does (`Single`).
-/

namespace Crabstash

namespace LockCall

/-- What the call has returned, once it has. -/
def result : LockCall → Option (Except LockError Unit)
  | done result => some result
  | _ => none

/-- A step of `register_txn`. -/
def Registers : LockCall → Prop
  | registerGraph _ _ => True
  | registerEscalation => True
  | done _ => True
  | _ => False

/-- A step of `release_all`. -/
def Releases : LockCall → Prop
  | releaseIter => True
  | releaseKeys _ => True
  | releaseRanges => True
  | releaseWaits => True
  | unregisterGraph => True
  | unregisterEscalation => True
  | done _ => True
  | _ => False

/-- A step of `lock_key` for the key in mode `X`, or of the range lock it escalates to. -/
def LocksKey (key : Bytes) : LockCall → Prop
  | keyRange key' mode => key' = key ∧ mode = .x
  | keyEntry key' mode => key' = key ∧ mode = .x
  | keyTry key' mode => key' = key ∧ mode = .x
  | keyHolders key' mode => key' = key ∧ mode = .x
  | keyEdges key' mode _ => key' = key ∧ mode = .x
  | keyAcquire key' mode _ => key' = key ∧ mode = .x
  | keyWait key' mode _ => key' = key ∧ mode = .x
  | keyUnwait key' _ _ => key' = key
  | keyRecord key' => key' = key
  | keyEscalate => True
  | keyCount => True
  | rangeCheck _ _ _ escalating => escalating = true
  | rangeIter _ _ _ escalating => escalating = true
  | rangeScan _ _ _ escalating _ => escalating = true
  | rangeInsert _ _ _ escalating => escalating = true
  | done _ => True
  | _ => False

/-- A call of `lock_key` that has the key. -/
def Granted : LockCall → Prop
  | keyUnwait _ _ result => result = .ok ()
  | keyRecord _ => True
  | keyEscalate => True
  | keyCount => True
  | rangeCheck _ _ _ _ => True
  | rangeIter _ _ _ _ => True
  | rangeScan _ _ _ _ _ => True
  | rangeInsert _ _ _ _ => True
  | done result => result = .ok ()
  | _ => False

end LockCall

namespace LockTable

variable {t : LockTable} {txnId : ℕ} {choice : LockChoice} {call : LockCall} {key : Bytes}

/-! ## What the calls pass through -/

theorem registers_step (h : call.Registers) : (t.step txnId choice call).2.Registers := by
  cases call <;> trivial

theorem releases_step (h : call.Releases) : (t.step txnId choice call).2.Releases := by
  cases call with
  | releaseKeys todo =>
      cases choice with
      | visit key =>
          simp only [step]
          split <;> trivial
      | next => simp only [step]; split <;> trivial
      | timeout => simp only [step]; split <;> trivial
  | releaseIter => trivial
  | releaseRanges => trivial
  | releaseWaits => trivial
  | unregisterGraph => trivial
  | unregisterEscalation => trivial
  | done result => trivial
  | _ => exact h.elim

theorem locksKey_step (h : call.LocksKey key) : (t.step txnId choice call).2.LocksKey key := by
  cases call with
  | keyRange key' mode =>
      rw [step]
      split
      · trivial
      · exact h
  | keyEntry key' mode => rw [step]; split <;> exact h
  | keyTry key' mode =>
      rw [step]
      split
      · exact h.1
      · exact h
  | keyHolders key' mode => exact h
  | keyEdges key' mode holders => exact h
  | keyAcquire key' mode holders =>
      rw [step]
      split
      · exact h.1
      · exact h
  | keyWait key' mode holders =>
      rw [step]
      split
      · exact h.1
      · split
        · exact h.1
        · exact h
  | keyUnwait key' holders result =>
      cases result with
      | ok _ => exact h
      | error e => trivial
  | keyRecord key' => rw [step]; split <;> trivial
  | keyEscalate =>
      rw [step]
      split
      · trivial
      · simp only
        split <;> trivial
  | keyCount => trivial
  | rangeCheck start last mode escalating =>
      -- only an escalation goes from a key on to ranges
      have hescalating : escalating = true := h
      subst hescalating
      rw [step]
      split
      · trivial
      · split <;> trivial
  | rangeIter start last mode escalating => exact h
  | rangeScan start last mode escalating todo =>
      have hescalating : escalating = true := h
      subst hescalating
      cases choice <;> simp only [step] <;> split <;> trivial
  | rangeInsert start last mode escalating =>
      have hescalating : escalating = true := h
      subst hescalating
      trivial
  | done result => trivial
  | _ => exact h.elim

/-! ## What they change -/

theorem effect_registers (t : LockTable) (txnId : ℕ) (choice : LockChoice)
    (h : call.Registers) : t.effect txnId choice call = .none := by
  cases call <;> first | rfl | exact h.elim

theorem effect_releases (t : LockTable) (txnId : ℕ) (choice : LockChoice) (h : call.Releases) :
    t.effect txnId choice call = .none ∨ (∃ key, t.effect txnId choice call = .release key) ∨
      t.effect txnId choice call = .removeRanges := by
  cases call with
  | releaseKeys todo =>
      cases choice with
      | visit key => exact Or.inr (Or.inl ⟨key, rfl⟩)
      | next => exact Or.inl rfl
      | timeout => exact Or.inl rfl
  | releaseRanges => exact Or.inr (Or.inr rfl)
  | releaseIter => exact Or.inl rfl
  | releaseWaits => exact Or.inl rfl
  | unregisterGraph => exact Or.inl rfl
  | unregisterEscalation => exact Or.inl rfl
  | done result => exact Or.inl rfl
  | _ => exact h.elim

theorem grantOn_cases (t : LockTable) (txnId : ℕ) (key : Bytes) (mode : LockMode) :
    t.grantOn txnId key mode = .none ∨ t.grantOn txnId key mode = .grant key mode := by
  unfold grantOn
  split
  · exact Or.inr rfl
  · exact Or.inl rfl

theorem effect_locksKey (t : LockTable) (txnId : ℕ) (choice : LockChoice)
    (h : call.LocksKey key) :
    t.effect txnId choice call = .none ∨ t.effect txnId choice call = .grant key .x ∨
      ∃ e, t.effect txnId choice call = .insertRange e := by
  -- an attempt on the key grants it in `X` or does nothing
  have hgrantOn : ∀ effect, effect = LockEffect.none ∨ effect = t.grantOn txnId key .x →
      effect = .none ∨ effect = .grant key .x ∨ ∃ e, effect = .insertRange e := by
    rintro effect (rfl | rfl)
    · exact Or.inl rfl
    · rcases t.grantOn_cases txnId key .x with heq | heq
      · exact Or.inl heq
      · exact Or.inr (Or.inl heq)
  cases call with
  | keyTry key' mode =>
      obtain ⟨rfl, rfl⟩ := h
      apply hgrantOn
      rw [effect]
      split
      · exact Or.inl rfl
      · exact Or.inr rfl
  | keyAcquire key' mode holders =>
      obtain ⟨rfl, rfl⟩ := h
      apply hgrantOn
      rw [effect]
      split
      · exact Or.inl rfl
      · exact Or.inr rfl
  | keyWait key' mode holders =>
      obtain ⟨rfl, rfl⟩ := h
      apply hgrantOn
      rw [effect]
      split
      · exact Or.inl rfl
      · exact Or.inr rfl
  | rangeInsert start last mode escalating => exact Or.inr (Or.inr ⟨_, rfl⟩)
  | keyRange key' mode => exact Or.inl rfl
  | keyEntry key' mode => exact Or.inl rfl
  | keyHolders key' mode => exact Or.inl rfl
  | keyEdges key' mode holders => exact Or.inl rfl
  | keyUnwait key' holders result => exact Or.inl rfl
  | keyRecord key' => exact Or.inl rfl
  | keyEscalate => exact Or.inl rfl
  | keyCount => exact Or.inl rfl
  | rangeCheck start last mode escalating => exact Or.inl rfl
  | rangeIter start last mode escalating => exact Or.inl rfl
  | rangeScan start last mode escalating todo => exact Or.inl rfl
  | done result => exact Or.inl rfl
  | _ => exact h.elim

/-! ## Exclusive locks -/

/-- Every lock on a key is in mode `X`. -/
def OnlyX (t : LockTable) : Prop := ∀ key txnId mode, t.modeOf key txnId = some mode → mode = .x

/-- A key has at most one holder. -/
def Single (t : LockTable) : Prop :=
  ∀ key txnId txnId', t.modeOf key txnId = some .x → t.modeOf key txnId' = some .x → txnId = txnId'

theorem onlyX_new (config : LockConfig) : (new config).OnlyX := by
  intro key txnId mode hmode
  contradiction

theorem single_new (config : LockConfig) : (new config).Single := by
  intro key txnId txnId' hmode
  contradiction

theorem OnlyX.step (h : t.OnlyX)
    (heffect : ∀ key mode, t.effect txnId choice call = .grant key mode → mode = .x) :
    (t.step txnId choice call).1.OnlyX := by
  intro key' txnId' mode' hmode'
  rw [modeOf_step] at hmode'
  split at hmode'
  · next key mode hgrant =>
      split at hmode'
      · exact Option.some.inj hmode' ▸ heffect key mode hgrant
      · exact h key' txnId' mode' hmode'
  · split at hmode'
    · contradiction
    · exact h key' txnId' mode' hmode'
  · exact h key' txnId' mode' hmode'

/-- A key is given only to a transaction that every holder goes with, and nobody goes with
`X`. -/
theorem Single.step (h : t.Single)
    (heffect : ∀ key mode, t.effect txnId choice call = .grant key mode → mode = .x) :
    (t.step txnId choice call).1.Single := by
  have hsound := t.sound_effect txnId choice call
  intro key' a b ha hb
  rw [modeOf_step] at ha hb
  cases heq : t.effect txnId choice call with
  | grant key mode =>
      obtain rfl := heffect key mode heq
      rw [heq] at ha hb hsound
      -- with `X` granted there is no other holder
      have hothers : ∀ c, t.modeOf key c = some .x → c = txnId := by
        intro c hc
        have := LockEntry.isCompatibleWithHolders_iff.mp hsound c .x hc
        exact this.resolve_right Bool.noConfusion
      simp only at ha hb
      by_cases hkey : key' = key
      · subst hkey
        simp only [true_and] at ha hb
        split at ha
        · next haeq =>
            split at hb
            · next hbeq => exact haeq.trans hbeq.symm
            · exact haeq.trans (hothers b hb).symm
        · split at hb
          · next hbeq => exact (hothers a ha).trans hbeq.symm
          · exact h key' a b ha hb
      · simp only [hkey, false_and, if_false] at ha hb
        exact h key' a b ha hb
  | release key =>
      rw [heq] at ha hb
      simp only at ha hb
      split at ha
      · contradiction
      · split at hb
        · contradiction
        · exact h key' a b ha hb
  | none =>
      rw [heq] at ha hb
      exact h key' a b ha hb
  | insertRange e =>
      rw [heq] at ha hb
      exact h key' a b ha hb
  | removeRanges =>
      rw [heq] at ha hb
      exact h key' a b ha hb

/-- What the transaction holds already is `X`. -/
theorem modeOf_of_keeps (h : t.OnlyX) (hkeeps : (t.entry key).keeps txnId .x = true) :
    t.modeOf key txnId = some .x := by
  unfold LockEntry.keeps at hkeeps
  have honly := h key txnId
  unfold modeOf LockEntry.getMode at honly ⊢
  cases hheld : (t.entry key).holders.lookup txnId with
  | none =>
      rw [hheld] at hkeeps
      contradiction
  | some mode => rw [honly mode hheld]

/-- A call that has the key keeps it. -/
theorem modeOf_step_of_held (h : call.LocksKey key) (hheld : t.modeOf key txnId = some .x) :
    (t.step txnId choice call).1.modeOf key txnId = some .x := by
  rw [modeOf_step]
  rcases effect_locksKey t txnId choice h with heq | heq | ⟨e, heq⟩
  · rw [heq]
    exact hheld
  · rw [heq]
    simp
  · rw [heq]
    exact hheld

theorem modeOf_step_of_grant (heffect : t.effect txnId choice call = .grant key .x) :
    (t.step txnId choice call).1.modeOf key txnId = some .x := by
  rw [modeOf_step, heffect]
  simp

/-- The first try succeeds because the key is held already, or because every holder agrees. -/
theorem modeOf_step_of_tryAcquire (honly : t.OnlyX) (h : call.LocksKey key)
    (heffect : t.effect txnId choice call =
      if (t.entry key).keeps txnId .x then .none else t.grantOn txnId key .x)
    (htaken : ((t.entry key).tryAcquire txnId .x).1 = true) :
    (t.step txnId choice call).1.modeOf key txnId = some .x := by
  rcases (t.entry key).tryAcquire_cases txnId .x with
    ⟨hkeeps, -⟩ | ⟨hkeeps, hcompatible, -⟩ | ⟨-, -, htry⟩
  · exact modeOf_step_of_held h (modeOf_of_keeps honly hkeeps)
  · apply modeOf_step_of_grant
    simp [heffect, hkeeps, grantOn, hcompatible]
  · rw [htry] at htaken
    contradiction

/-- A step that the key is granted at puts the transaction among its holders. -/
theorem modeOf_of_granted (honly : t.OnlyX) (h : call.LocksKey key)
    (hheld : call.Granted → t.modeOf key txnId = some .x)
    (hgranted : (t.step txnId choice call).2.Granted) :
    (t.step txnId choice call).1.modeOf key txnId = some .x := by
  cases call with
  | keyTry key' mode =>
      have hlocks := h
      obtain ⟨rfl, rfl⟩ := h
      apply modeOf_step_of_tryAcquire honly hlocks rfl
      rw [step] at hgranted
      split at hgranted
      · next htry => rw [htry]
      · exact hgranted.elim
  | keyAcquire key' mode holders =>
      have hlocks := h
      obtain ⟨rfl, rfl⟩ := h
      apply modeOf_step_of_tryAcquire honly hlocks rfl
      rw [step] at hgranted
      split at hgranted
      · next htry => rw [htry]
      · exact hgranted.elim
  | keyWait key' mode holders =>
      obtain ⟨rfl, rfl⟩ := h
      rw [step] at hgranted
      split at hgranted
      · contradiction
      -- the turn that grants is the one that finds the holders compatible
      · next htimeout =>
          unfold LockEntry.acquireTurn at hgranted
          cases hcompatible : (t.entry key').isCompatibleWithHolders txnId .x with
          | true =>
              apply modeOf_step_of_grant
              simp [effect, htimeout, grantOn, hcompatible]
          | false =>
              rw [hcompatible] at hgranted
              exact hgranted.elim
  | keyUnwait key' holders result =>
      cases result with
      | ok _ => exact modeOf_step_of_held h (hheld rfl)
      | error e => contradiction
  | keyRange key' mode =>
      rw [step] at hgranted
      split at hgranted
      · contradiction
      · exact hgranted.elim
  | keyEntry key' mode =>
      rw [step] at hgranted
      split at hgranted <;> exact hgranted.elim
  | keyHolders key' mode => exact hgranted.elim
  | keyEdges key' mode holders => exact hgranted.elim
  | keyRecord key' => exact modeOf_step_of_held h (hheld trivial)
  | keyEscalate => exact modeOf_step_of_held h (hheld trivial)
  | keyCount => exact modeOf_step_of_held h (hheld trivial)
  | rangeCheck start last mode escalating => exact modeOf_step_of_held h (hheld trivial)
  | rangeIter start last mode escalating => exact modeOf_step_of_held h (hheld trivial)
  | rangeScan start last mode escalating todo => exact modeOf_step_of_held h (hheld trivial)
  | rangeInsert start last mode escalating => exact modeOf_step_of_held h (hheld trivial)
  | done result => exact modeOf_step_of_held h (hheld hgranted)
  | _ => exact h.elim

end LockTable
end Crabstash

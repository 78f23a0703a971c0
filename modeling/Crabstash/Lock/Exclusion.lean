import Crabstash.Foundations.Run
import Crabstash.Lock.LockTable

/-!
# Exclusion

Any number of calls on one `LockTable`, in any order of their steps.  A transaction holds a
mode on a key through the entry of the key or through a range lock that contains it.

The holders of one entry always go with each other, since the test and the insertion are
under one mutex.  The two structures are another matter: `lock_key` looks at the range locks
before it comes to the entry, where it may wait, and does not look again; `upgrade_lock`
does not look at all; `lock_range` looks at the entries and inserts its range later.  In
between the other structure changes.  So the condition is that at the moment a lock is put
in (`Clear`) the checks of the code would pass again, which is what a check under the same
lock as the insertion would ensure.

Even then a range without an end can be missed, since the search takes it to end at 256
bytes `0xFF`; a lock that starts behind them is clear only if no such range is in the way
(`Reaches`).
-/

namespace Crabstash

/-! ## The system -/

/-- The calls of the lock table. -/
inductive LockRequest where
  | registerTxn (startTs priority : ℕ)
  | unregisterTxn
  | lockKey (key : Bytes) (mode : LockMode)
  | lockRange (start last : Bound) (mode : LockMode)
  | upgradeLock (key : Bytes)
  | releaseAll
  deriving DecidableEq

/-- The first step of a method. -/
def LockRequest.call : LockRequest → LockCall
  | registerTxn startTs priority => .registerGraph startTs priority
  | unregisterTxn => .unregisterGraph
  | lockKey key mode => .keyRange key mode
  | lockRange start last mode => .rangeCheck start last mode false
  | upgradeLock key => .upgradeGet key
  | releaseAll => .releaseIter

/-- The table, and the calls under way with what each does next. -/
structure LockSystem where
  table : LockTable
  calls : HashMap ℕ (ℕ × LockCall)
  nextCallId : ℕ

/-- A call is made, or one under way goes on. -/
inductive LockStep where
  | call (txnId : ℕ) (request : LockRequest)
  | advance (callId : ℕ) (choice : LockChoice)
  deriving DecidableEq

namespace LockSystem

/-- A new table and no calls. -/
def init (config : LockConfig) : LockSystem :=
  { table := LockTable.new config, calls := ∅, nextCallId := 0 }

/-- The system after a step; a call that has returned is forgotten. -/
def step (s : LockSystem) : LockStep → LockSystem
  | .call txnId request =>
      { s with
        calls := s.calls.insert s.nextCallId (txnId, request.call)
        nextCallId := s.nextCallId + 1 }
  | .advance callId choice =>
      match s.calls.lookup callId with
      | none => s
      | some (txnId, call) =>
          let (table, call) := s.table.step txnId choice call
          { s with table, calls := s.calls.insert callId (txnId, call) }

end LockSystem

namespace LockTable

/-- A mode of the transaction on the key: the one in the entry, or one of a range lock. -/
def Holds (t : LockTable) (txnId : ℕ) (key : Bytes) (mode : LockMode) : Prop :=
  t.modeOf key txnId = some mode ∨
    ∃ e ∈ t.rangeLocks.entries, e.txnId = txnId ∧ e.mode = mode ∧ e.containsKey key = true

instance (t : LockTable) (txnId : ℕ) (key : Bytes) (mode : LockMode) :
    Decidable (t.Holds txnId key mode) :=
  inferInstanceAs (Decidable (_ ∨ _))

/-- No two transactions hold modes on a key that do not go with each other. -/
def Exclusive (t : LockTable) : Prop :=
  ∀ key txnId txnId' mode mode', txnId ≠ txnId' → t.Holds txnId key mode →
    t.Holds txnId' key mode' → mode.isCompatible mode' = true

/-! ## The condition -/

/-- A search from this start finds every range lock in the way. -/
def Reaches (t : LockTable) (txnId : ℕ) (start last : Bound) (mode : LockMode) : Prop :=
  IntervalTree.boundLessThan IntervalTree.unboundedEnd start = true →
    ∀ e ∈ t.rangeLocks.entries, e.last = .unbounded → e.overlaps start last = true →
      e.txnId = txnId ∨ mode.isCompatible e.mode = true

/-- A lock that is put in passes the checks of the code at that moment. -/
def Clear (t : LockTable) (txnId : ℕ) : LockEffect → Prop
  | .grant key mode =>
      t.keyFree txnId key mode = true ∧ t.Reaches txnId (.included key) (.included key) mode
  | .insertRange e =>
      t.rangeFree txnId e.start e.last e.mode = true ∧ t.Reaches txnId e.start e.last e.mode ∧
        ∀ key ∈ t.keyLocks.keys, t.holdersFree txnId e.start e.last e.mode key = true
  | _ => True

instance (t : LockTable) (txnId : ℕ) (start last : Bound) (mode : LockMode) :
    Decidable (t.Reaches txnId start last mode) :=
  inferInstanceAs (Decidable (_ → ∀ e ∈ t.rangeLocks.entries, _ → _ → _ ∨ _))

instance (t : LockTable) (txnId : ℕ) (effect : LockEffect) : Decidable (t.Clear txnId effect) :=
  match effect with
  | .none => inferInstanceAs (Decidable True)
  | .grant _ _ => inferInstanceAs (Decidable (_ ∧ _))
  | .insertRange _ => inferInstanceAs (Decidable (_ ∧ _ ∧ ∀ _ ∈ _, _))
  | .release _ => inferInstanceAs (Decidable True)
  | .removeRanges => inferInstanceAs (Decidable True)

/-- Range locks in the way are found, so that a check that passes leaves none. -/
theorem compatible_of_free {t : LockTable} (hranges : t.rangeLocks.WellFormed) {txnId : ℕ}
    {start last : Bound} {mode : LockMode} (hfree : t.rangeFree txnId start last mode = true)
    (hreaches : t.Reaches txnId start last mode) {e : RangeLockEntry}
    (he : e ∈ t.rangeLocks.entries) (hoverlaps : e.overlaps start last = true) :
    e.txnId = txnId ∨ mode.isCompatible e.mode = true := by
  by_cases hmissed : e.last = .unbounded ∧
      IntervalTree.boundLessThan IntervalTree.unboundedEnd start = true
  · exact hreaches hmissed.2 e he hmissed.1 hoverlaps
  · have hfound : e ∈ t.rangeLocks.findOverlapping start last := by
      apply IntervalTree.mem_findOverlapping hranges he hoverlaps
      intro hlast
      by_contra hbehind
      exact hmissed ⟨hlast, by simpa using hbehind⟩
    have := List.all_eq_true.mp hfree e hfound
    simpa using this

/-! ## The invariant -/

/-- The search tree is one, and exclusion holds. -/
structure Guarded (t : LockTable) : Prop where
  ranges : t.rangeLocks.WellFormed
  exclusive : t.Exclusive

theorem guarded_new (config : LockConfig) : (new config).Guarded := by
  refine ⟨IntervalTree.wellFormed_new, ?_⟩
  rintro key txnId txnId' mode mode' - hholds -
  rcases hholds with hmode | ⟨e, he, -⟩
  · contradiction
  · exact absurd he List.not_mem_nil

/-- Exclusion is not lost by locks that go. -/
theorem Exclusive.anti {t t' : LockTable} (h : t.Exclusive)
    (hholds : ∀ txnId key mode, t'.Holds txnId key mode → t.Holds txnId key mode) :
    t'.Exclusive := by
  intro key txnId txnId' mode mode' hne hmode hmode'
  exact h key txnId txnId' mode mode' hne (hholds _ _ _ hmode) (hholds _ _ _ hmode')

/-- Exclusion is not lost by a lock that goes with every lock of the others. -/
theorem Exclusive.add {t t' : LockTable} (h : t.Exclusive) (txnId : ℕ)
    (new : Bytes → LockMode → Prop)
    (hholds : ∀ txnId' key mode, t'.Holds txnId' key mode →
      t.Holds txnId' key mode ∨ (txnId' = txnId ∧ new key mode))
    (hnew : ∀ key mode txnId' mode', new key mode → txnId' ≠ txnId → t.Holds txnId' key mode' →
      mode.isCompatible mode' = true) : t'.Exclusive := by
  intro key txn₁ txn₂ mode₁ mode₂ hne hmode₁ hmode₂
  rcases hholds txn₁ key mode₁ hmode₁ with hold₁ | ⟨heq₁, hnew₁⟩
  · rcases hholds txn₂ key mode₂ hmode₂ with hold₂ | ⟨heq₂, hnew₂⟩
    · exact h key txn₁ txn₂ mode₁ mode₂ hne hold₁ hold₂
    · rw [LockMode.isCompatible_comm]
      exact hnew key mode₂ txn₁ mode₁ hnew₂ (heq₂ ▸ hne) hold₁
  · rcases hholds txn₂ key mode₂ hmode₂ with hold₂ | ⟨heq₂, hnew₂⟩
    · exact hnew key mode₁ txn₂ mode₂ hnew₁ (heq₁ ▸ hne.symm) hold₂
    · exact absurd (heq₁.trans heq₂.symm) hne

/-- What goes with the holders of the entry and passes the range check goes with every
lock of the others on the key. -/
theorem compatible_of_grant {t : LockTable} (hranges : t.rangeLocks.WellFormed) {txnId : ℕ}
    {key : Bytes} {mode : LockMode} (hsound : t.Sound txnId (.grant key mode))
    (hclear : t.Clear txnId (.grant key mode)) {txnId' : ℕ} {mode' : LockMode}
    (hne : txnId' ≠ txnId) (hholds : t.Holds txnId' key mode') :
    mode.isCompatible mode' = true := by
  rcases hholds with hmode | ⟨e, he, htxn, rfl, hcontains⟩
  · have := LockEntry.isCompatibleWithHolders_iff.mp hsound txnId' mode' hmode
    exact this.resolve_left hne
  · have hself : inRange key (.included key, .included key) = true := by simp [inRange]
    have hoverlaps := RangeLockEntry.overlaps_of_inRange hcontains hself
    have := compatible_of_free hranges hclear.1 hclear.2 he hoverlaps
    exact this.resolve_left (htxn ▸ hne)

/-- The same for a range lock. -/
theorem compatible_of_insertRange {t : LockTable} (hranges : t.rangeLocks.WellFormed) {txnId : ℕ}
    {e : RangeLockEntry} (hclear : t.Clear txnId (.insertRange e)) {key : Bytes}
    (hcontains : e.containsKey key = true) {txnId' : ℕ} {mode' : LockMode} (hne : txnId' ≠ txnId)
    (hholds : t.Holds txnId' key mode') : e.mode.isCompatible mode' = true := by
  obtain ⟨hfree, hreaches, hkeys⟩ := hclear
  rcases hholds with hmode | ⟨e', he', htxn, rfl, hcontains'⟩
  · have hkey : key ∈ t.keyLocks.keys := by
      rw [← AList.mem_keys, ← AList.lookup_isSome]
      cases hlookup : t.keyLocks.lookup key with
      | some entry => rfl
      | none =>
          rw [modeOf, entry, hlookup] at hmode
          contradiction
    have hholders := hkeys key hkey
    rw [holdersFree, show inRange key (e.start, e.last) = true from hcontains] at hholders
    have := LockEntry.isCompatibleWithHolders_iff.mp (by simpa using hholders) txnId' mode' hmode
    exact this.resolve_left hne
  · have hoverlaps := RangeLockEntry.overlaps_of_inRange hcontains' hcontains
    have := compatible_of_free hranges hfree hreaches he' hoverlaps
    exact this.resolve_left (htxn ▸ hne)

theorem wellFormed_rangesAfter {t : LockTable} (h : t.rangeLocks.WellFormed) (txnId : ℕ)
    (effect : LockEffect) : (t.rangesAfter txnId effect).WellFormed := by
  cases effect with
  | insertRange e => exact h.insert e
  | removeRanges => exact IntervalTree.wellFormed_removeByTxn _ txnId
  | _ => exact h

/-- One step of a call. -/
theorem Guarded.step {t : LockTable} (h : t.Guarded) (txnId : ℕ) (choice : LockChoice)
    (call : LockCall) (hclear : t.Clear txnId (t.effect txnId choice call)) :
    (t.step txnId choice call).1.Guarded := by
  have hmodeOf := t.modeOf_step txnId choice call
  have hranges := t.rangeLocks_step txnId choice call
  have hsound := t.sound_effect txnId choice call
  refine ⟨hranges ▸ wellFormed_rangesAfter h.ranges txnId _, ?_⟩
  generalize t.effect txnId choice call = effect at hmodeOf hranges hsound hclear
  generalize (t.step txnId choice call).1 = t' at hmodeOf hranges
  cases effect with
  | none =>
      have hmodes : ∀ key txnId', t'.modeOf key txnId' = t.modeOf key txnId' := hmodeOf
      have hsame : t'.rangeLocks = t.rangeLocks := hranges
      apply h.exclusive.anti
      rintro txnId' key mode (hmode | hrange)
      · exact Or.inl (hmodes key txnId' ▸ hmode)
      · exact Or.inr (hsame ▸ hrange)
  | grant key mode =>
      have hsame : t'.rangeLocks = t.rangeLocks := hranges
      apply h.exclusive.add txnId fun key' mode' => key' = key ∧ mode' = mode
      · rintro txnId' key' mode' (hmode | hrange)
        · rw [hmodeOf] at hmode
          simp only at hmode
          split at hmode
          · next hself => exact Or.inr ⟨hself.2, hself.1, (Option.some.inj hmode).symm⟩
          · exact Or.inl (Or.inl hmode)
        · exact Or.inl (Or.inr (hsame ▸ hrange))
      · rintro key' mode' txnId' mode'' ⟨rfl, rfl⟩ hne hholds
        -- the entry is only compared with its own holders, the ranges come in with `hclear`
        exact compatible_of_grant h.ranges hsound hclear hne hholds
  | insertRange e =>
      have hmodes : ∀ key txnId', t'.modeOf key txnId' = t.modeOf key txnId' := hmodeOf
      have htxn : e.txnId = txnId := hsound
      apply h.exclusive.add txnId fun key mode => mode = e.mode ∧ e.containsKey key = true
      · rintro txnId' key mode (hmode | ⟨e', he', htxn', hmode', hcontains⟩)
        · exact Or.inl (Or.inl (hmodes key txnId' ▸ hmode))
        · rw [hranges, rangesAfter, IntervalTree.entries_insert, List.mem_append,
            List.mem_singleton] at he'
          rcases he' with he' | rfl
          · exact Or.inl (Or.inr ⟨e', he', htxn', hmode', hcontains⟩)
          · exact Or.inr ⟨htxn' ▸ htxn, hmode'.symm, hcontains⟩
      · rintro key mode txnId' mode' ⟨rfl, hcontains⟩ hne hholds
        exact compatible_of_insertRange h.ranges hclear hcontains hne hholds
  | release key =>
      have hsame : t'.rangeLocks = t.rangeLocks := hranges
      apply h.exclusive.anti
      rintro txnId' key' mode (hmode | hrange)
      · rw [hmodeOf] at hmode
        simp only at hmode
        split at hmode
        · contradiction
        · exact Or.inl hmode
      · exact Or.inr (hsame ▸ hrange)
  | removeRanges =>
      have hmodes : ∀ key txnId', t'.modeOf key txnId' = t.modeOf key txnId' := hmodeOf
      apply h.exclusive.anti
      rintro txnId' key mode (hmode | ⟨e, he, hrest⟩)
      · exact Or.inl (hmodes key txnId' ▸ hmode)
      · rw [hranges, rangesAfter, IntervalTree.entries_removeByTxn, List.mem_filter] at he
        exact Or.inr ⟨e, he.1, hrest⟩

end LockTable

/-! ## Runs -/

namespace LockSystem

/-- If the step puts a lock in, the checks pass at this moment. -/
def ClearStep (s : LockSystem) : LockStep → Prop
  | .call _ _ => True
  | .advance callId choice =>
      ∀ call ∈ s.calls.lookup callId, s.table.Clear call.1 (s.table.effect call.1 choice call.2)

instance (s : LockSystem) (action : LockStep) : Decidable (s.ClearStep action) :=
  match action with
  | .call _ _ => inferInstanceAs (Decidable True)
  | .advance callId choice =>
      inferInstanceAs (Decidable (∀ call ∈ s.calls.lookup callId,
        s.table.Clear call.1 (s.table.effect call.1 choice call.2)))

/-- In every run in which locks are put in only where the checks pass again, no two
transactions ever hold modes on a key that do not go with each other. -/
theorem exclusive_run (config : LockConfig) (steps : List LockStep)
    (hsteps : Run.Along step ClearStep (init config) steps) :
    (Run.run step (init config) steps).table.Exclusive := by
  have hguarded : (Run.run step (init config) steps).table.Guarded := by
    refine hsteps.invariant (fun s : LockSystem => s.table.Guarded) ?_
      (LockTable.guarded_new config)
    intro s action h hclear
    cases action with
    | call txnId request => exact h
    | advance callId choice =>
        rw [step]
        cases hcall : s.calls.lookup callId with
        | none => exact h
        | some call => exact h.step call.1 choice call.2 (hclear call hcall)
  exact hguarded.exclusive

/-- Steps of one call, without a choice. -/
def advances (callId n : ℕ) : List LockStep := List.replicate n (.advance callId .next)

/-- A call and its first steps; its number is that of the calls made before it. -/
def called (txnId : ℕ) (request : LockRequest) (callId n : ℕ) : List LockStep :=
  .call txnId request :: advances callId n

/-- One transaction locks a key and releases it; then two others share it, one through a
range. -/
def handover : List LockStep :=
  called 1 (.lockKey [107] .x) 0 5 ++ called 1 .releaseAll 1 1 ++
    [LockStep.advance 1 (.visit [107])] ++ advances 1 5 ++
    called 2 (.lockRange (.included [97]) .unbounded .s) 2 2 ++
    [LockStep.advance 2 (.visit [107])] ++ advances 2 2 ++ called 3 (.lockKey [107] .s) 3 5

theorem exclusive_handover :
    (Run.run step (init LockConfig.default) handover).table.Exclusive :=
  exclusive_run LockConfig.default handover (by decide +kernel)

/-- A range lock that is checked before a key lock in the range is put in, and inserted
after. -/
def overtaken : List LockStep :=
  called 2 (.lockRange (.included [97]) (.included [122]) .s) 0 3 ++
    called 1 (.lockKey [107] .x) 1 5 ++ advances 0 1

theorem not_exclusive_overtaken :
    LockConfig.default.enableRangeLocks = true ∧
      ¬ (Run.run step (init LockConfig.default) overtaken).table.Exclusive := by
  refine ⟨rfl, fun h => ?_⟩
  have hcompatible := h [107] 1 2 .x .s (by decide) (by decide +kernel) (by decide +kernel)
  contradiction

end LockSystem
end Crabstash

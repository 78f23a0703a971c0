import Crabstash.Foundations.Run
import Crabstash.Storage.WalSegments

/-!
# Nothing is lost in the segments

`WalHistory` records beside a run what each call appends, which calls have returned `Ok`,
and which had when another began.  After the last manager is closed, recovery should return
the records of exactly these calls, each call at one place, in an order that goes with the
time in which they ran (`Lossless`).

The order is the one in which the calls have appended.  Rotation and archiving do not
disturb it: the segment a call appends to is always the newest, and the segments that a call
moves away are older than one that was current when it looked (`Ahead`).

This needs three things of a step (`ReadyStep`).  What is appended can be read back; there
is a number for the next segment; and the sum of the first segment and the number of
segments to keep does not wrap around.  When it does, the current segment is moved away with
the others, the next session does not see it, and its numbers start again.
-/

namespace Crabstash

/-- The system, and what an observer writes down. -/
structure WalHistory where
  system : WalSystem
  records : HashMap ℕ (List WalRecord)
  before : HashMap ℕ (List ℕ)
  returned : List ℕ

namespace WalHistory

/-- Nothing has been appended. -/
def init : WalHistory := { system := WalSystem.init, records := ∅, before := ∅, returned := [] }

/-- The records a call has begun with. -/
def recordsOf (h : WalHistory) (callId : ℕ) : List WalRecord := (h.records.lookup callId).getD []

/-- The calls that had returned when this one began. -/
def finishedBefore (h : WalHistory) (callId : ℕ) : List ℕ := (h.before.lookup callId).getD []

/-- What a call that begins in the step appends. -/
def begunBy (s : WalSystem) (action : WalStep) : Option (List WalRecord) :=
  match s.manager, action with
  | some _, .append record => some [record]
  | some _, .appendBatch records => some records
  | _, _ => none

/-- The call that returns `Ok` in the step. -/
def returnedBy (codec : WalCodec) (s : WalSystem) (action : WalStep) : Option ℕ :=
  match s.manager, action with
  | some m, .advance callId =>
      match s.calls.lookup callId with
      | some call =>
          if (s.advance codec m callId call).2 = .returned true then some callId else none
      | none => none
  | _, _ => none

/-- The system after the step, with what the history notes of it. -/
def step (codec : WalCodec) (h : WalHistory) (action : WalStep) : WalHistory :=
  { system := h.system.step codec action
    records :=
      match begunBy h.system action with
      | some records => h.records.insert h.system.nextCallId records
      | none => h.records
    before :=
      match begunBy h.system action with
      | some _ => h.before.insert h.system.nextCallId h.returned
      | none => h.before
    returned := (returnedBy codec h.system action).toList ++ h.returned }

/-- Recovery returns the records of every call that has returned `Ok` exactly once, call by
call, and calls that came one after the other in that order. -/
def Lossless (codec : WalCodec) (h : WalHistory) : Prop :=
  ∃ order : List ℕ, order.Nodup ∧ (∀ callId, callId ∈ order ↔ callId ∈ h.returned) ∧
    order.Pairwise (fun callId later => later ∉ h.finishedBefore callId) ∧
    h.system.files.recoverPitr codec (2 ^ 64 - 1) = .ok (order.flatMap h.recordsOf)

/-- No number wraps around in the step of a call. -/
def NoWrap (m : WalManager) : AppendPc → Prop
  | .create => m.inner.currentSegment + 1 < 2 ^ 64
  | .loadFirst _ => m.firstSegment + m.options.minSegmentsToKeep < 2 ^ 64
  | _ => True

/-- What is appended can be read back, and no number wraps around. -/
def ReadyStep (h : WalHistory) : WalStep → Prop
  | .append record => record.WellFormed
  | .appendBatch records => ∀ record ∈ records, record.WellFormed
  | .advance callId =>
      ∀ m ∈ h.system.manager, ∀ call ∈ h.system.calls.lookup callId, NoWrap m call.pc
  | _ => True

instance (m : WalManager) (pc : AppendPc) : Decidable (NoWrap m pc) :=
  match pc with
  | .check => inferInstanceAs (Decidable True)
  | .appendShared => inferInstanceAs (Decidable True)
  | .count => inferInstanceAs (Decidable True)
  | .rotate => inferInstanceAs (Decidable True)
  | .create => inferInstanceAs (Decidable (_ < _))
  | .readCurrent => inferInstanceAs (Decidable True)
  | .loadFirst _ => inferInstanceAs (Decidable (_ < _))
  | .scan _ _ => inferInstanceAs (Decidable True)
  | .rename _ _ => inferInstanceAs (Decidable True)
  | .storeFirst _ => inferInstanceAs (Decidable True)
  | .appendAlone => inferInstanceAs (Decidable True)

instance (h : WalHistory) (action : WalStep) : Decidable (h.ReadyStep action) :=
  match action with
  | .open _ => inferInstanceAs (Decidable True)
  | .close => inferInstanceAs (Decidable True)
  | .append record => inferInstanceAs (Decidable record.WellFormed)
  | .appendBatch records => inferInstanceAs (Decidable (∀ record ∈ records, record.WellFormed))
  | .advance callId => inferInstanceAs
      (Decidable (∀ m ∈ h.system.manager, ∀ call ∈ h.system.calls.lookup callId, NoWrap m call.pc))
  | .spill _ => inferInstanceAs (Decidable True)
  | .sync => inferInstanceAs (Decidable True)

/-! ## The calls and their order -/

/-- The calls that have appended, in this order. -/
structure Ordered (h : WalHistory) (landed : List Landed) : Prop where
  nodup : (landed.map Landed.callId).Nodup
  records : ∀ e ∈ landed, h.records.lookup e.callId = some e.records
  calls : ∀ callId call, h.system.calls.lookup callId = some call →
    callId < h.system.nextCallId ∧ h.records.lookup callId = some call.records ∧
      callId ∉ h.returned
  returned : ∀ callId ∈ h.returned, callId < h.system.nextCallId
  appended : ∀ callId, callId ∈ landed.map Landed.callId ↔ callId ∈ h.returned ∨
    ∃ call, h.system.calls.lookup callId = some call ∧ call.pc = .count
  before : ∀ callId, ∀ callId' ∈ h.finishedBefore callId, callId' ∈ h.returned
  order : landed.Pairwise fun e e' => e'.callId ∉ h.finishedBefore e.callId

theorem ordered_init : init.Ordered [] where
  nodup := List.nodup_nil
  records := fun e he => absurd he List.not_mem_nil
  calls := by
    intro callId call hlookup
    contradiction
  returned := fun callId hmem => absurd hmem List.not_mem_nil
  appended := by
    intro callId
    constructor
    · exact fun hmem => absurd hmem List.not_mem_nil
    · rintro (hmem | ⟨call, hlookup, -⟩)
      · exact absurd hmem List.not_mem_nil
      · contradiction
  before := fun callId callId' hmem => absurd hmem List.not_mem_nil
  order := List.Pairwise.nil

section

variable {h : WalHistory} {landed : List Landed}

/-- Files, manager and lock do not matter. -/
theorem Ordered.withSystem (hordered : h.Ordered landed) {system : WalSystem}
    (hcalls : system.calls = h.system.calls) (hnext : system.nextCallId = h.system.nextCallId) :
    { h with system }.Ordered landed :=
  ⟨hordered.nodup, hordered.records, by rw [hcalls, hnext]; exact hordered.calls,
    by rw [hnext]; exact hordered.returned, by rw [hcalls]; exact hordered.appended,
    hordered.before, hordered.order⟩

/-- What has appended has begun. -/
theorem Ordered.lt_of_landed (hordered : h.Ordered landed) {e : Landed} (he : e ∈ landed) :
    e.callId < h.system.nextCallId := by
  rcases (hordered.appended e.callId).mp (List.mem_map_of_mem he) with hreturned | ⟨call, hcall, -⟩
  · exact hordered.returned e.callId hreturned
  · exact (hordered.calls e.callId call hcall).1

/-- A call begins. -/
theorem Ordered.invoke (hordered : h.Ordered landed) (records : List WalRecord) (isBatch : Bool) :
    ({ h with
      system := h.system.invoke records isBatch
      records := h.records.insert h.system.nextCallId records
      before := h.before.insert h.system.nextCallId h.returned } : WalHistory).Ordered landed := by
  have hcalls : ∀ {callId}, callId ≠ h.system.nextCallId →
      (h.system.invoke records isBatch).calls.lookup callId = h.system.calls.lookup callId :=
    fun hne => AList.lookup_insert_ne hne
  have hbefore : ∀ {callId}, callId ≠ h.system.nextCallId →
      ((h.before.insert h.system.nextCallId h.returned).lookup callId).getD [] =
        h.finishedBefore callId := by
    intro callId hne
    rw [AList.lookup_insert_ne hne]
    rfl
  refine ⟨hordered.nodup, ?_, ?_, ?_, ?_, ?_, ?_⟩
  · intro e he
    exact (AList.lookup_insert_ne (hordered.lt_of_landed he).ne).trans (hordered.records e he)
  · intro callId call hlookup
    by_cases heq : callId = h.system.nextCallId
    · subst heq
      have hself : (h.system.invoke records isBatch).calls.lookup h.system.nextCallId =
          some { records, isBatch, pc := .check } := AList.lookup_insert _
      obtain rfl := Option.some.inj (hself.symm.trans hlookup)
      refine ⟨Nat.lt_succ_self _, AList.lookup_insert _, fun hreturned => ?_⟩
      -- the number of the new call is above those of all before
      exact absurd (hordered.returned _ hreturned) (lt_irrefl _)
    · obtain ⟨hlt, hrecords, hnot⟩ :=
        hordered.calls callId call ((hcalls heq).symm.trans hlookup)
      exact ⟨hlt.trans (Nat.lt_succ_self _), (AList.lookup_insert_ne heq).trans hrecords, hnot⟩
  · exact fun callId hreturned =>
      (hordered.returned callId hreturned).trans (Nat.lt_succ_self _)
  · intro callId
    rw [hordered.appended]
    refine or_congr_right ?_
    by_cases heq : callId = h.system.nextCallId
    · subst heq
      constructor
      · rintro ⟨call, hlookup, -⟩
        exact absurd (hordered.calls _ call hlookup).1 (lt_irrefl _)
      · rintro ⟨call, hlookup, hpc⟩
        have hself : (h.system.invoke records isBatch).calls.lookup h.system.nextCallId =
            some { records, isBatch, pc := .check } := AList.lookup_insert _
        obtain rfl := Option.some.inj (hself.symm.trans hlookup)
        contradiction
    · rw [hcalls heq]
  · intro callId callId' hmem
    by_cases heq : callId = h.system.nextCallId
    · rw [finishedBefore, heq, AList.lookup_insert] at hmem
      exact hmem
    · rw [finishedBefore, hbefore heq] at hmem
      exact hordered.before callId callId' hmem
  · refine hordered.order.imp_of_mem fun {e e'} he _ hnot hmem => hnot ?_
    rw [finishedBefore, hbefore (hordered.lt_of_landed he).ne] at hmem
    exact hmem

/-- A call goes on. -/
theorem Ordered.goOn (hordered : h.Ordered landed) {callId : ℕ} {call : AppendCall}
    (hcall : h.system.calls.lookup callId = some call) {pc : AppendPc}
    (hpc : pc = .count ↔ call.pc = .count) {system : WalSystem}
    (hcalls : system.calls = h.system.calls.insert callId { call with pc })
    (hnext : system.nextCallId = h.system.nextCallId) :
    { h with system }.Ordered landed := by
  have hcall' := hordered.calls callId call hcall
  refine ⟨hordered.nodup, hordered.records, ?_, ?_, ?_, hordered.before, hordered.order⟩
  · intro callId' call' hlookup
    rw [hcalls] at hlookup
    rw [hnext]
    by_cases heq : callId' = callId
    · rw [heq, AList.lookup_insert] at hlookup
      rw [heq, ← Option.some.inj hlookup]
      exact hcall'
    · exact hordered.calls callId' call' ((AList.lookup_insert_ne heq).symm.trans hlookup)
  · rw [hnext]
    exact hordered.returned
  · intro callId'
    rw [hordered.appended, hcalls]
    refine or_congr_right ?_
    by_cases heq : callId' = callId
    · rw [heq, AList.lookup_insert, hcall]
      simp [hpc]
    · rw [AList.lookup_insert_ne heq]

/-- A call appends. -/
theorem Ordered.lands (hordered : h.Ordered landed) {callId : ℕ} {call : AppendCall}
    (hcall : h.system.calls.lookup callId = some call) (hpc : call.pc ≠ .count) (segment : ℕ)
    {system : WalSystem}
    (hcalls : system.calls = h.system.calls.insert callId { call with pc := .count })
    (hnext : system.nextCallId = h.system.nextCallId) :
    { h with system }.Ordered
      (landed ++ [({ segment, callId, records := call.records } : Landed)]) := by
  obtain ⟨hlt, hrecords, hnot⟩ := hordered.calls callId call hcall
  have hnew : callId ∉ landed.map Landed.callId := by
    rw [hordered.appended, hcall]
    simp [hnot, hpc]
  refine ⟨?_, ?_, ?_, ?_, ?_, hordered.before, ?_⟩
  · rw [List.map_append, List.nodup_append]
    refine ⟨hordered.nodup, List.nodup_singleton _, ?_⟩
    intro callId' hmem callId'' hmem' heq
    have hmem' : callId'' = callId := by simpa using hmem'
    rw [heq, hmem'] at hmem
    exact hnew hmem
  · intro e he
    rcases List.mem_append.mp he with he | he
    · exact hordered.records e he
    · rw [List.mem_singleton.mp he]
      exact hrecords
  · intro callId' call' hlookup
    rw [hcalls] at hlookup
    rw [hnext]
    by_cases heq : callId' = callId
    · rw [heq, AList.lookup_insert] at hlookup
      rw [heq, ← Option.some.inj hlookup]
      exact ⟨hlt, hrecords, hnot⟩
    · exact hordered.calls callId' call' ((AList.lookup_insert_ne heq).symm.trans hlookup)
  · rw [hnext]
    exact hordered.returned
  · intro callId'
    rw [List.map_append, List.mem_append, hordered.appended, hcalls, List.map_singleton,
      List.mem_singleton]
    by_cases heq : callId' = callId
    · rw [heq, AList.lookup_insert]
      simp
    · rw [AList.lookup_insert_ne heq]
      simp [heq]
  · rw [List.pairwise_append]
    refine ⟨hordered.order, List.pairwise_singleton _ _, ?_⟩
    -- a call that has not returned is before no other
    intro e _ e' he' hmem
    rw [List.mem_singleton.mp he'] at hmem
    exact hnot (hordered.before e.callId callId hmem)

/-- A call that has appended returns. -/
theorem Ordered.returns (hordered : h.Ordered landed) {callId : ℕ} {call : AppendCall}
    (hcall : h.system.calls.lookup callId = some call) (hpc : call.pc = .count)
    {system : WalSystem} (hcalls : system.calls = h.system.calls.erase callId)
    (hnext : system.nextCallId = h.system.nextCallId) :
    { h with system, returned := callId :: h.returned }.Ordered landed := by
  obtain ⟨hlt, hrecords, hnot⟩ := hordered.calls callId call hcall
  refine ⟨hordered.nodup, hordered.records, ?_, ?_, ?_, ?_, hordered.order⟩
  · intro callId' call' hlookup
    rw [hcalls] at hlookup
    rw [hnext]
    obtain ⟨hne, hlookup⟩ := lookup_erase_eq_some_iff.mp hlookup
    obtain ⟨hlt', hrecords', hnot'⟩ := hordered.calls callId' call' hlookup
    exact ⟨hlt', hrecords', fun hmem => (List.mem_cons.mp hmem).elim hne hnot'⟩
  · intro callId' hmem
    rw [hnext]
    rcases List.mem_cons.mp hmem with rfl | hmem
    · exact hlt
    · exact hordered.returned callId' hmem
  · intro callId'
    rw [hordered.appended, hcalls, List.mem_cons]
    by_cases heq : callId' = callId
    · rw [heq, AList.lookup_erase, hcall]
      simp [hpc]
    · rw [AList.lookup_erase_ne heq]
      simp [heq]
  · exact fun callId' callId'' hmem =>
      List.mem_cons_of_mem callId (hordered.before callId' callId'' hmem)

/-- A call that has not appended returns an error. -/
theorem Ordered.fails (hordered : h.Ordered landed) {callId : ℕ} {call : AppendCall}
    (hcall : h.system.calls.lookup callId = some call) (hpc : call.pc ≠ .count)
    {system : WalSystem} (hcalls : system.calls = h.system.calls.erase callId)
    (hnext : system.nextCallId = h.system.nextCallId) :
    { h with system }.Ordered landed := by
  refine ⟨hordered.nodup, hordered.records, ?_, ?_, ?_, hordered.before, hordered.order⟩
  · intro callId' call' hlookup
    rw [hcalls] at hlookup
    rw [hnext]
    exact hordered.calls callId' call' (lookup_of_erase hlookup)
  · rw [hnext]
    exact hordered.returned
  · intro callId'
    rw [hordered.appended, hcalls]
    refine or_congr_right ?_
    by_cases heq : callId' = callId
    · rw [heq, AList.lookup_erase, hcall]
      simp [hpc]
    · rw [AList.lookup_erase_ne heq]

end

/-! ## The files -/

/-- What a call moves away is older than the current segment. -/
def Ahead (current : ℕ) : AppendPc → Prop
  | .loadFirst current' => current' ≤ current
  | .scan _ archiveUpTo => archiveUpTo ≤ current
  | .rename segmentId archiveUpTo => segmentId < archiveUpTo ∧ archiveUpTo ≤ current
  | _ => True

theorem Ahead.mono {current current' : ℕ} (hle : current ≤ current') {pc : AppendPc}
    (h : Ahead current pc) : Ahead current' pc := by
  cases pc with
  | loadFirst current'' => exact le_trans h hle
  | scan segmentId archiveUpTo => exact le_trans h hle
  | rename segmentId archiveUpTo => exact ⟨h.1, h.2.trans hle⟩
  | _ => trivial

/-- What a step of a call means for what has been appended. -/
inductive Progress (callId : ℕ) (call : AppendCall) (landed : List Landed) :
    CallOutcome → List Landed → Prop
  | goesOn (hpc : call.pc ≠ .count) {pc : AppendPc} (hpc' : pc ≠ .count) :
      Progress callId call landed (.goOn pc) landed
  | appends (hpc : call.pc ≠ .count) (segment : ℕ) :
      Progress callId call landed (.goOn .count)
        (landed ++ [{ segment, callId, records := call.records }])
  | waits (hpc : call.pc = .count) : Progress callId call landed (.goOn .count) landed
  | returns (hpc : call.pc = .count) : Progress callId call landed (.returned true) landed
  | appendsAndReturns (hpc : call.pc ≠ .count) (segment : ℕ) :
      Progress callId call landed (.returned true)
        (landed ++ [{ segment, callId, records := call.records }])
  | fails (hpc : call.pc ≠ .count) : Progress callId call landed (.returned false) landed

/-- Nothing that a call moves away is in use. -/
theorem archiveUpTo_le {m : WalManager} {current : ℕ} (hkeeps : ¬ m.keepsAll current)
    (hwrap : m.firstSegment + m.options.minSegmentsToKeep < 2 ^ 64) :
    m.archiveUpTo current ≤ current := by
  unfold WalManager.keepsAll at hkeeps
  rw [Nat.mod_eq_of_lt hwrap] at hkeeps
  have hsum : current + (2 ^ 64 - m.options.minSegmentsToKeep) =
      (current - m.options.minSegmentsToKeep) + 2 ^ 64 := by omega
  calc m.archiveUpTo current
      = (current - m.options.minSegmentsToKeep) % 2 ^ 64 := by
        rw [WalManager.archiveUpTo, hsum, Nat.add_mod_right]
    _ ≤ current - m.options.minSegmentsToKeep := Nat.mod_le _ _
    _ ≤ current := Nat.sub_le _ _

/-- The manager and its segments after a step of a call. -/
structure Advanced (codec : WalCodec) (landed : List Landed) (s : WalSystem) (m : WalManager)
    (callId : ℕ) (call : AppendCall) (result : WalSystem × CallOutcome) (landed' : List Landed)
    (m' : WalManager) : Prop where
  manager : result.1.manager = some m'
  calls : result.1.calls = s.calls
  nextCallId : result.1.nextCallId = s.nextCallId
  newer : m.inner.currentSegment ≤ m'.inner.currentSegment
  ahead : ∀ pc, result.2 = .goOn pc → Ahead m'.inner.currentSegment pc
  partition : Partition codec landed' result.1.files m'.inner.currentSegment m'.inner.currentWal
  progress : Progress callId call landed result.2 landed'

theorem ahead_of_goOn {current : ℕ} {pc : AppendPc} (hahead : Ahead current pc) (pc' : AppendPc)
    (heq : CallOutcome.goOn pc = .goOn pc') : Ahead current pc' :=
  CallOutcome.goOn.inj heq ▸ hahead

/-- A step in which only the lock or the place of the call changes. -/
theorem advanced_of_same {codec : WalCodec} {landed : List Landed} {s s' : WalSystem}
    {m : WalManager} {callId : ℕ} {call : AppendCall} {pc : AppendPc}
    (h : Partition codec landed s.files m.inner.currentSegment m.inner.currentWal)
    (hmanager : s'.manager = some m) (hcalls : s'.calls = s.calls)
    (hnext : s'.nextCallId = s.nextCallId) (hfiles : s'.files = s.files)
    (hahead : Ahead m.inner.currentSegment pc)
    (hprogress : Progress callId call landed (.goOn pc) landed) :
    Advanced codec landed s m callId call (s', .goOn pc) landed m :=
  ⟨hmanager, hcalls, hnext, le_rfl, ahead_of_goOn hahead, hfiles ▸ h, hprogress⟩

/-- A step from one place to another, neither of which is the count. -/
theorem exists_goesOn {codec : WalCodec} {landed : List Landed} {s s' : WalSystem}
    {m : WalManager} {callId : ℕ} {call : AppendCall} {pc : AppendPc}
    (h : Partition codec landed s.files m.inner.currentSegment m.inner.currentWal)
    (hmanager : s'.manager = some m) (hcalls : s'.calls = s.calls)
    (hnext : s'.nextCallId = s.nextCallId) (hfiles : s'.files = s.files)
    (hpc : call.pc ≠ .count) (hpc' : pc ≠ .count) (hahead : Ahead m.inner.currentSegment pc) :
    ∃ landed' m', Advanced codec landed s m callId call (s', .goOn pc) landed' m' :=
  ⟨landed, m, advanced_of_same h hmanager hcalls hnext hfiles hahead (.goesOn hpc hpc')⟩

theorem exists_advanced {codec : WalCodec} {landed : List Landed} {s : WalSystem} {m : WalManager}
    (hm : s.manager = some m) {callId : ℕ} {call : AppendCall}
    (h : Partition codec landed s.files m.inner.currentSegment m.inner.currentWal)
    (hahead : Ahead m.inner.currentSegment call.pc)
    (hrecords : ∀ record ∈ call.records, record.WellFormed)
    (hready : NoWrap m call.pc) :
    ∃ landed' m',
      Advanced codec landed s m callId call (s.advance codec m callId call) landed' m' := by
  obtain ⟨records, isBatch, pc⟩ := call
  unfold WalSystem.advance
  cases pc with
  | check =>
      simp only
      split
      · exact exists_goesOn h hm rfl rfl rfl AppendPc.noConfusion AppendPc.noConfusion trivial
      · split
        · exact exists_goesOn h hm rfl rfl rfl AppendPc.noConfusion AppendPc.noConfusion trivial
        · exact exists_goesOn h hm rfl rfl rfl AppendPc.noConfusion AppendPc.noConfusion trivial
  | appendShared =>
      refine ⟨landed ++ [{ segment := m.inner.currentSegment, callId, records }],
        (s.appendCurrent codec m records).2, rfl, rfl, rfl, le_rfl, ahead_of_goOn trivial, ?_,
        .appends AppendPc.noConfusion _⟩
      exact h.append m.options.walOptions callId hrecords
  | count =>
      simp only
      split
      · exact ⟨landed, _, rfl, rfl, rfl, le_rfl, nofun, h, .returns rfl⟩
      · exact ⟨landed, m, advanced_of_same h hm rfl rfl rfl trivial (.waits rfl)⟩
  | rotate =>
      simp only
      split
      · exact ⟨landed, _, rfl, rfl, rfl, le_rfl, ahead_of_goOn trivial, h.sync,
          .goesOn AppendPc.noConfusion AppendPc.noConfusion⟩
      · exact exists_goesOn h hm rfl rfl rfl AppendPc.noConfusion AppendPc.noConfusion trivial
  | create =>
      -- the number of the new segment has not wrapped around
      have hnext : (m.inner.currentSegment + 1) % 2 ^ 64 = m.inner.currentSegment + 1 :=
        Nat.mod_eq_of_lt hready
      simp only [hnext]
      refine ⟨landed, _, rfl, rfl, rfl, Nat.le_succ _, ahead_of_goOn ?_, h.rotate,
        .goesOn AppendPc.noConfusion ?_⟩
      · split <;> trivial
      · split <;> exact AppendPc.noConfusion
  | readCurrent =>
      simp only
      split
      · exact exists_goesOn h hm rfl rfl rfl AppendPc.noConfusion AppendPc.noConfusion trivial
      · exact exists_goesOn h hm rfl rfl rfl AppendPc.noConfusion AppendPc.noConfusion le_rfl
  | loadFirst current =>
      simp only
      split
      · exact exists_goesOn h hm rfl rfl rfl AppendPc.noConfusion AppendPc.noConfusion trivial
      · next hkeeps =>
          -- what was read as the current segment may be an older one by now
          have hle := (archiveUpTo_le hkeeps hready).trans hahead
          exact exists_goesOn h hm rfl rfl rfl AppendPc.noConfusion AppendPc.noConfusion hle
  | scan segmentId archiveUpTo =>
      simp only
      split
      · exact exists_goesOn h hm rfl rfl rfl AppendPc.noConfusion AppendPc.noConfusion trivial
      · next hlt =>
          split
          · exact exists_goesOn h hm rfl rfl rfl AppendPc.noConfusion AppendPc.noConfusion
              ⟨by omega, hahead⟩
          · exact exists_goesOn h hm rfl rfl rfl AppendPc.noConfusion AppendPc.noConfusion hahead
  | rename segmentId archiveUpTo =>
      obtain ⟨hlt, hle⟩ := hahead
      simp only
      split
      · next file hlookup =>
          exact ⟨landed, m, hm, rfl, rfl, le_rfl, ahead_of_goOn hle,
            h.rename hlookup (hlt.trans_le hle),
            .goesOn AppendPc.noConfusion AppendPc.noConfusion⟩
      · exact ⟨landed, m, hm, rfl, rfl, le_rfl, nofun, h, .fails AppendPc.noConfusion⟩
  | storeFirst archiveUpTo =>
      exact ⟨landed, _, rfl, rfl, rfl, le_rfl, ahead_of_goOn trivial, h,
        .goesOn AppendPc.noConfusion AppendPc.noConfusion⟩
  | appendAlone =>
      simp only
      split
      · exact ⟨landed ++ [{ segment := m.inner.currentSegment, callId, records }], _, rfl, rfl, rfl,
          le_rfl, nofun, h.append m.options.walOptions callId hrecords,
          .appendsAndReturns AppendPc.noConfusion _⟩
      · exact exists_goesOn h hm rfl rfl rfl AppendPc.noConfusion AppendPc.noConfusion trivial

/-- While a manager is open its segments hold what has been appended, and otherwise the
files do. -/
def Stored (codec : WalCodec) (landed : List Landed) (s : WalSystem) : Prop :=
  match s.manager with
  | some m =>
      Partition codec landed s.files m.inner.currentSegment m.inner.currentWal ∧
        ∀ callId call, s.calls.lookup callId = some call → Ahead m.inner.currentSegment call.pc
  | none => Rests codec landed s.files ∧ s.calls = ∅

/-- What a run keeps: the order of what has landed, well-formed records, and files that hold
them. -/
structure Sound (codec : WalCodec) (h : WalHistory) (landed : List Landed) : Prop where
  ordered : h.Ordered landed
  wellFormed : ∀ callId call, h.system.calls.lookup callId = some call →
    ∀ record ∈ call.records, record.WellFormed
  stored : Stored codec landed h.system

theorem sound_init (codec : WalCodec) : Sound codec init [] where
  ordered := ordered_init
  wellFormed := by
    intro callId call hlookup
    contradiction
  stored := ⟨Or.inl ⟨rfl, rfl⟩, rfl⟩

section

variable {codec : WalCodec} {h : WalHistory} {landed : List Landed}

/-! ## One step -/

/-- What may change without a call taking a step. -/
theorem Sound.withSystem (hsound : Sound codec h landed) {system : WalSystem}
    (hcalls : system.calls = h.system.calls) (hnext : system.nextCallId = h.system.nextCallId)
    (hstored : Stored codec landed system) : Sound codec { h with system } landed :=
  ⟨hsound.ordered.withSystem hcalls hnext, by rw [hcalls]; exact hsound.wellFormed, hstored⟩

theorem Sound.invoke (hsound : Sound codec h landed) {m : WalManager}
    (hm : h.system.manager = some m) {records : List WalRecord}
    (hrecords : ∀ record ∈ records, record.WellFormed) (isBatch : Bool) :
    Sound codec { h with
      system := h.system.invoke records isBatch
      records := h.records.insert h.system.nextCallId records
      before := h.before.insert h.system.nextCallId h.returned } landed := by
  have hcalls : ∀ {callId call}, (h.system.invoke records isBatch).calls.lookup callId = some call →
      call = { records, isBatch, pc := .check } ∨ h.system.calls.lookup callId = some call := by
    intro callId call hlookup
    have hlookup : (h.system.calls.insert h.system.nextCallId
        { records, isBatch, pc := .check }).lookup callId = some call := hlookup
    by_cases heq : callId = h.system.nextCallId
    · rw [heq, AList.lookup_insert] at hlookup
      exact Or.inl (Option.some.inj hlookup).symm
    · exact Or.inr ((AList.lookup_insert_ne heq).symm.trans hlookup)
  have hstored := hsound.stored
  rw [Stored, hm] at hstored
  obtain ⟨hpartition, hahead⟩ := hstored
  refine ⟨hsound.ordered.invoke records isBatch, ?_, ?_⟩
  · intro callId call hlookup
    rcases hcalls hlookup with rfl | hold
    · exact hrecords
    · exact hsound.wellFormed callId call hold
  · have hmanager : (h.system.invoke records isBatch).manager = some m := hm
    simp only [Stored, hmanager]
    refine ⟨hpartition, fun callId call hlookup => ?_⟩
    rcases hcalls hlookup with rfl | hold
    · trivial
    · exact hahead callId call hold

/-- The calls after a step of one of them. -/
theorem lookup_settle {callId : ℕ} {call : AppendCall} (result : WalSystem × CallOutcome)
    {callId' : ℕ} {call' : AppendCall}
    (hlookup : (WalSystem.settle callId call result).calls.lookup callId' = some call') :
    (∃ pc, result.2 = .goOn pc ∧ call' = { call with pc }) ∨
      result.1.calls.lookup callId' = some call' := by
  obtain ⟨s, outcome⟩ := result
  cases outcome with
  | goOn pc =>
      have hlookup : (s.calls.insert callId { call with pc }).lookup callId' = some call' := hlookup
      by_cases heq : callId' = callId
      · rw [heq, AList.lookup_insert] at hlookup
        exact Or.inl ⟨pc, rfl, (Option.some.inj hlookup).symm⟩
      · exact Or.inr ((AList.lookup_insert_ne heq).symm.trans hlookup)
  | returned isOk =>
      exact Or.inr (lookup_of_erase hlookup)

/-- The order after a step of a call. -/
theorem Ordered.settle (hordered : h.Ordered landed) {callId : ℕ} {call : AppendCall}
    (hcall : h.system.calls.lookup callId = some call) {result : WalSystem × CallOutcome}
    (hcalls : result.1.calls = h.system.calls)
    (hnext : result.1.nextCallId = h.system.nextCallId) {landed' : List Landed}
    (hprogress : Progress callId call landed result.2 landed') :
    ({ h with
      system := WalSystem.settle callId call result
      returned := (if result.2 = .returned true then some callId else none).toList ++
        h.returned } : WalHistory).Ordered landed' := by
  obtain ⟨s, outcome⟩ := result
  have hcalls : s.calls = h.system.calls := hcalls
  cases hprogress with
  | @goesOn hpc pc hpc' =>
      exact hordered.goOn hcall (iff_of_false hpc' hpc) (congrArg (AList.insert callId _) hcalls)
        hnext
  | appends hpc segment =>
      exact hordered.lands hcall hpc segment (congrArg (AList.insert callId _) hcalls) hnext
  | waits hpc =>
      exact hordered.goOn hcall (iff_of_true rfl hpc) (congrArg (AList.insert callId _) hcalls) hnext
  | returns hpc =>
      exact hordered.returns hcall hpc (congrArg (AList.erase callId) hcalls) hnext
  | appendsAndReturns hpc segment =>
      -- the two parts of the step, one after the other
      have hlands : ({ h with system := { h.system with
          calls := h.system.calls.insert callId { call with pc := .count } } } : WalHistory).Ordered
            (landed ++ [{ segment, callId, records := call.records }]) :=
        hordered.lands hcall hpc segment rfl rfl
      have hself : (h.system.calls.insert callId { call with pc := .count }).lookup callId =
          some { call with pc := .count } := AList.lookup_insert _
      refine hlands.returns hself rfl ?_ hnext
      rw [erase_insert_self]
      exact congrArg (AList.erase callId) hcalls
  | fails hpc => exact hordered.fails hcall hpc (congrArg (AList.erase callId) hcalls) hnext

/-- A call takes a step. -/
theorem Sound.settle (hsound : Sound codec h landed) {m m' : WalManager}
    (hm : h.system.manager = some m) {callId : ℕ} {call : AppendCall}
    (hcall : h.system.calls.lookup callId = some call) {result : WalSystem × CallOutcome}
    {landed' : List Landed}
    (hadvanced : Advanced codec landed h.system m callId call result landed' m') :
    Sound codec { h with
      system := WalSystem.settle callId call result
      returned := (if result.2 = .returned true then some callId else none).toList ++
        h.returned } landed' := by
  refine ⟨hsound.ordered.settle hcall hadvanced.calls hadvanced.nextCallId hadvanced.progress,
    ?_, ?_⟩
  · intro callId' call' hlookup
    rcases lookup_settle result hlookup with ⟨pc, -, rfl⟩ | hold
    · exact hsound.wellFormed callId call hcall
    · exact hsound.wellFormed callId' call' (hadvanced.calls ▸ hold)
  · have hstored := hsound.stored
    rw [Stored, hm] at hstored
    have hmanager : (WalSystem.settle callId call result).manager = some m' := by
      have hmanager := hadvanced.manager
      obtain ⟨s, outcome⟩ := result
      cases outcome <;> exact hmanager
    have hfiles : (WalSystem.settle callId call result).files = result.1.files := by
      obtain ⟨s, outcome⟩ := result
      cases outcome <;> rfl
    simp only [Stored, hmanager, hfiles]
    refine ⟨hadvanced.partition, fun callId' call' hlookup => ?_⟩
    rcases lookup_settle result hlookup with ⟨pc, hpc, rfl⟩ | hold
    · exact hadvanced.ahead pc hpc
    · exact (hstored.2 callId' call' (hadvanced.calls ▸ hold)).mono hadvanced.newer

theorem Sound.step (hsound : Sound codec h landed) {action : WalStep}
    (hready : h.ReadyStep action) : ∃ landed', Sound codec (h.step codec action) landed' := by
  have hstored := hsound.stored
  unfold WalHistory.step
  cases hm : h.system.manager with
  | none =>
      rw [Stored, hm] at hstored
      -- while no manager is open, all that can happen is that one is opened
      obtain ⟨hrests, hcalls⟩ := hstored
      cases action with
      | «open» options =>
          simp only [WalSystem.step, begunBy, returnedBy, hm]
          refine ⟨landed, hsound.withSystem rfl rfl ⟨hrests.open options, ?_⟩⟩
          intro callId call hlookup
          have hlookup : h.system.calls.lookup callId = some call := hlookup
          rw [hcalls] at hlookup
          contradiction
      | _ =>
          simp only [WalSystem.step, begunBy, returnedBy, hm]
          exact ⟨landed, hsound⟩
  | some m =>
      rw [Stored, hm] at hstored
      obtain ⟨hpartition, hahead⟩ := hstored
      cases action with
      | «open» options =>
          simp only [WalSystem.step, begunBy, returnedBy, hm]
          exact ⟨landed, hsound⟩
      | close =>
          simp only [WalSystem.step, begunBy, returnedBy, hm]
          split
          · next hcalls =>
              -- dropping the manager writes what is buffered
              exact ⟨landed, hsound.withSystem rfl rfl
                ⟨Or.inr ⟨m.inner.currentSegment, _, rfl, hpartition.sync⟩, AList.ext hcalls⟩⟩
          · exact ⟨landed, hsound⟩
      | append record =>
          have hrecords : ∀ record' ∈ [record], record'.WellFormed := by
            intro record' hmem
            rw [List.mem_singleton.mp hmem]
            exact hready
          simp only [WalSystem.step, begunBy, returnedBy, hm]
          exact ⟨landed, hsound.invoke hm hrecords false⟩
      | appendBatch records =>
          simp only [WalSystem.step, begunBy, returnedBy, hm]
          exact ⟨landed, hsound.invoke hm hready true⟩
      | advance callId =>
          cases hcall : h.system.calls.lookup callId with
          | none =>
              simp only [WalSystem.step, begunBy, returnedBy, hm, hcall]
              exact ⟨landed, hsound⟩
          | some call =>
              simp only [WalSystem.step, begunBy, returnedBy, hm, hcall]
              obtain ⟨landed', m', hadvanced⟩ := exists_advanced hm hpartition
                (hahead callId call hcall) (hsound.wellFormed callId call hcall)
                (hready m hm call hcall)
              exact ⟨landed', hsound.settle hm hcall hadvanced⟩
      | spill count =>
          simp only [WalSystem.step, begunBy, returnedBy, hm]
          exact ⟨landed, hsound.withSystem rfl rfl ⟨hpartition.spill count, hahead⟩⟩
      | sync =>
          simp only [WalSystem.step, begunBy, returnedBy, hm]
          split
          · exact ⟨landed, hsound⟩
          · exact ⟨landed, hsound.withSystem rfl rfl ⟨hpartition.sync, hahead⟩⟩

end

/-! ## A whole run -/

theorem lossless_of_sound {codec : WalCodec} (hcodec : codec.Inverts) {h : WalHistory}
    {landed : List Landed} (hsound : Sound codec h landed) (hclosed : h.system.manager = none) :
    h.Lossless codec := by
  have hstored := hsound.stored
  rw [Stored, hclosed] at hstored
  obtain ⟨hrests, hcalls⟩ := hstored
  refine ⟨landed.map Landed.callId, hsound.ordered.nodup, ?_, ?_, ?_⟩
  · intro callId
    rw [hsound.ordered.appended, hcalls]
    simp
  · rw [List.pairwise_map]
    exact hsound.ordered.order
  · rw [hrests.recoverPitr hcodec, List.flatMap_map]
    congr 1
    apply List.flatMap_congr
    intro e he
    rw [recordsOf, hsound.ordered.records e he, Option.getD_some]


theorem sound_run (codec : WalCodec) {steps : List WalStep}
    (hsteps : Run.Along (step codec) ReadyStep init steps) :
    ∃ landed, Sound codec (Run.run (step codec) init steps) landed :=
  hsteps.invariant (fun h => ∃ landed, Sound codec h landed)
    (fun _ _ ⟨_, hsound⟩ hready => hsound.step hready) ⟨[], sound_init codec⟩

/-- In every run of any number of sessions in which what is appended can be read back and no
number wraps around, nothing is lost when the last manager is closed. -/
theorem lossless_run {codec : WalCodec} (hcodec : codec.Inverts) (steps : List WalStep)
    (hsteps : Run.Along (step codec) ReadyStep init steps)
    (hclosed : (Run.run (step codec) init steps).system.manager = none) :
    (Run.run (step codec) init steps).Lossless codec := by
  obtain ⟨landed, hsound⟩ := sound_run codec hsteps
  exact lossless_of_sound hcodec hsound hclosed

/-! ## Keeping all segments -/

/-- One bit of the CRC-32. -/
def crcBit (crc : ℕ) : ℕ := if crc % 2 = 1 then (crc >>> 1) ^^^ 0xEDB88320 else crc >>> 1

/-- CRC-32, and payloads stored as they are. -/
def storingCodec : WalCodec where
  crc32 data := UInt32.ofNat
    (data.foldl (fun crc b => crcBit^[8] (crc ^^^ b.toNat)) 0xFFFFFFFF ^^^ 0xFFFFFFFF)
  compress payload := LittleEndian.toLE 4 payload.length ++ payload
  decompress data := .ok (data.drop 4)

theorem inverts_storingCodec : storingCodec.Inverts :=
  fun _ _ => congrArg Except.ok (List.drop_left' (LittleEndian.length_toLE 4 _))

/-- Segments for one record each. -/
def optionsKeeping (minSegmentsToKeep : ℕ) : WalManagerOptions :=
  { walOptions := { syncMode := .noSync, enableCompression := false, groupCommitSizeBytes := 0 }
    segmentSizeBytes := 30
    archiveDir := true
    minSegmentsToKeep }

/-- A put whose timestamp tells it from the others. -/
def recordNumber (n : ℕ) : WalRecord := WalRecord.ofWrite [7] (some [1]) n

/-- A call of `append` from its first step to its last. -/
def appendNumber (callId : ℕ) : List WalStep :=
  .append (recordNumber callId) :: List.replicate 14 (.advance callId)

/-- Two records in one session, and a third in the next. -/
def twoSessions (minSegmentsToKeep : ℕ) : List WalStep :=
  .open (optionsKeeping minSegmentsToKeep) :: (appendNumber 0 ++ appendNumber 1) ++
    [.close, .open (optionsKeeping minSegmentsToKeep)] ++ appendNumber 2 ++ [.close]

/-- The runs of the examples, without compression. -/
def runOf (steps : List WalStep) : WalHistory := Run.run (step storingCodec) init steps

theorem lossless_twoSessions : (runOf (twoSessions 0)).Lossless storingCodec :=
  lossless_run inverts_storingCodec (twoSessions 0) (by decide +kernel) (by decide +kernel)

/-- The first session moves its current segment away, and the second starts with the number
of a segment that is in the archive already. -/
theorem not_lossless_keepingAll : ¬ (runOf (twoSessions (2 ^ 64 - 1))).Lossless storingCodec := by
  rintro ⟨order, -, hreturned, -, hrecovered⟩
  have hlost : (runOf (twoSessions (2 ^ 64 - 1))).system.files.recoverPitr storingCodec
      (2 ^ 64 - 1) = .ok [recordNumber 0, recordNumber 1] := by decide +kernel
  have hthird : 2 ∈ order := (hreturned 2).mpr (by decide +kernel)
  have hrecord : recordNumber 2 ∈ order.flatMap (runOf (twoSessions (2 ^ 64 - 1))).recordsOf :=
    List.mem_flatMap.mpr ⟨2, hthird, by decide +kernel⟩
  rw [hlost] at hrecovered
  rw [← Except.ok.inj hrecovered] at hrecord
  exact absurd hrecord (by decide)

end WalHistory
end Crabstash

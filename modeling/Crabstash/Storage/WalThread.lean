import Crabstash.Storage.WalHistory

/-!
# One thread appends

A single thread begins a call of `append` or `append_batch` when the last one has returned;
what the background thread does, which is to bring buffered bytes into the file, may come at
any time.

An invariant of such runs has three parts (`ThreadInvariant`): what holds of the files while
no manager is open, of files and manager between two calls, and during a call, which depends
on how far the call has come.  The places of a call where it archives old segments change
neither what is in a file nor the size that is counted, so that a step of a call has one of
nine effects (`AppendEffect`), and an invariant is shown by going over these.
-/

namespace Crabstash

open SegmentFiles

/-- A call begins only when there is no other. -/
def WalSystem.Sequential (s : WalSystem) : WalStep → Prop
  | .append _ => s.calls.entries = []
  | .appendBatch _ => s.calls.entries = []
  | _ => True

instance (s : WalSystem) (action : WalStep) : Decidable (s.Sequential action) :=
  match action with
  | .open _ => inferInstanceAs (Decidable True)
  | .close => inferInstanceAs (Decidable True)
  | .append _ => inferInstanceAs (Decidable (_ = _))
  | .appendBatch _ => inferInstanceAs (Decidable (_ = _))
  | .advance _ => inferInstanceAs (Decidable True)
  | .spill _ => inferInstanceAs (Decidable True)
  | .sync => inferInstanceAs (Decidable True)

namespace AppendPc

/-- The call has made a new segment and has not appended to it yet. -/
def isFresh : AppendPc → Bool
  | check => false
  | appendShared => false
  | count => false
  | rotate => false
  | create => false
  | readCurrent => true
  | loadFirst _ => true
  | scan _ _ => true
  | rename _ _ => true
  | storeFirst _ => true
  | appendAlone => true

end AppendPc

/-! ## The effect of a step -/

/-- What a step of a call does to the files and the manager, and how the call goes on. -/
inductive AppendEffect (codec : WalCodec) (d : SegmentFiles) (m : WalManager) (call : AppendCall) :
    SegmentFiles → WalManager → CallOutcome → Prop
  | waits : AppendEffect codec d m call d m (.goOn call.pc)
  | room (hpc : call.pc = .check)
      (hroom : m.inner.currentSize + call.estimatedSize ≤ m.options.segmentSizeBytes) :
      AppendEffect codec d m call d m (.goOn .appendShared)
  | full (hpc : call.pc = .check)
      (hfull : ¬m.inner.currentSize + call.estimatedSize ≤ m.options.segmentSizeBytes) :
      AppendEffect codec d m call d m (.goOn .rotate)
  | appends (hpc : call.pc = .appendShared) :
      AppendEffect codec d m call
        (m.inner.currentWal.append codec m.options.walOptions d call.records).1
        (m.withWal (m.inner.currentWal.append codec m.options.walOptions d call.records).2)
        (.goOn .count)
  | counts (hpc : call.pc = .count) :
      AppendEffect codec d m call d (m.addSize call.estimatedSize) (.returned true)
  | syncs (hpc : call.pc = .rotate) :
      AppendEffect codec d m call (m.inner.currentWal.sync d).1
        (m.withWal (m.inner.currentWal.sync d).2) (.goOn .create)
  | creates (hpc : call.pc = .create) {segment : ℕ} {pc : AppendPc} (hpc' : pc.isFresh = true)
      {m' : WalManager} (hoptions : m'.options = m.options)
      (hinner : m'.inner =
        { currentWal := SegmentWal.newWithFile (d.openTruncate segment).1
          currentSegment := segment, currentSize := 0 }) :
      AppendEffect codec d m call
        (m.inner.currentWal.sync (d.openTruncate segment).2).1 m' (.goOn pc)
  | passes (hpc : call.pc.isFresh = true) {d' : SegmentFiles} (hcontents : d'.contents = d.contents)
      {m' : WalManager} (hinner : m'.inner = m.inner) (hoptions : m'.options = m.options)
      {outcome : CallOutcome} (houtcome : ∀ pc, outcome = .goOn pc → pc.isFresh = true) :
      AppendEffect codec d m call d' m' outcome
  | appendsAlone (hpc : call.pc = .appendAlone) :
      AppendEffect codec d m call
        (m.inner.currentWal.append codec m.options.walOptions d call.records).1
        ((m.withWal (m.inner.currentWal.append codec m.options.walOptions d
          call.records).2).addSize call.sizeAlone)
        (.returned true)

/-- A step on the way through the archive. -/
theorem AppendEffect.passesOn {codec : WalCodec} {d d' : SegmentFiles} {m m' : WalManager}
    {call : AppendCall} {pc : AppendPc} (hpc : call.pc.isFresh = true)
    (hpc' : pc.isFresh = true) (hcontents : d'.contents = d.contents)
    (hinner : m'.inner = m.inner) (hoptions : m'.options = m.options) :
    AppendEffect codec d m call d' m' (.goOn pc) :=
  .passes hpc hcontents hinner hoptions fun _ heq => CallOutcome.goOn.inj heq ▸ hpc'

theorem WalSystem.advance_effect (codec : WalCodec) {s : WalSystem} {m : WalManager}
    (hm : s.manager = some m) (callId : ℕ) (call : AppendCall) :
    ∃ m', (s.advance codec m callId call).1.manager = some m' ∧
      (s.advance codec m callId call).1.calls = s.calls ∧
      AppendEffect codec s.files m call (s.advance codec m callId call).1.files m'
        (s.advance codec m callId call).2 := by
  obtain ⟨records, isBatch, pc⟩ := call
  unfold WalSystem.advance
  cases pc with
  | check =>
      simp only
      split
      · exact ⟨m, hm, rfl, .waits⟩
      · split
        · next hroom => exact ⟨m, hm, rfl, .room rfl hroom⟩
        · next hfull => exact ⟨m, hm, rfl, .full rfl hfull⟩
  | appendShared => exact ⟨_, rfl, rfl, .appends rfl⟩
  | count =>
      simp only
      split
      · exact ⟨_, rfl, rfl, .counts rfl⟩
      · exact ⟨m, hm, rfl, .waits⟩
  | rotate =>
      simp only
      split
      · exact ⟨_, rfl, rfl, .syncs rfl⟩
      · exact ⟨m, hm, rfl, .waits⟩
  | create =>
      refine ⟨_, rfl, rfl, .creates rfl ?_ rfl rfl⟩
      split <;> rfl
  -- archiving adds no record
  | readCurrent =>
      simp only
      split
      · exact ⟨m, hm, rfl, .waits⟩
      · exact ⟨m, hm, rfl, .passesOn rfl rfl rfl rfl rfl⟩
  | loadFirst current =>
      simp only
      split
      · exact ⟨m, hm, rfl, .passesOn rfl rfl rfl rfl rfl⟩
      · exact ⟨m, hm, rfl, .passesOn rfl rfl rfl rfl rfl⟩
  | scan segmentId archiveUpTo =>
      simp only
      split
      · exact ⟨m, hm, rfl, .passesOn rfl rfl rfl rfl rfl⟩
      · split
        · exact ⟨m, hm, rfl, .passesOn rfl rfl rfl rfl rfl⟩
        · exact ⟨m, hm, rfl, .passesOn rfl rfl rfl rfl rfl⟩
  | rename segmentId archiveUpTo =>
      simp only
      split
      · exact ⟨m, hm, rfl, .passesOn rfl rfl rfl rfl rfl⟩
      · refine ⟨m, hm, rfl, .passes rfl rfl rfl rfl ?_⟩
        intro pc heq
        contradiction
  | storeFirst archiveUpTo => exact ⟨_, rfl, rfl, .passesOn rfl rfl rfl rfl rfl⟩
  | appendAlone =>
      simp only
      split
      · exact ⟨_, rfl, rfl, .appendsAlone rfl⟩
      · exact ⟨m, hm, rfl, .waits⟩

/-! ## Invariants of one thread -/

/-- What holds without a manager, between two calls, and during one. -/
structure ThreadInvariant where
  closed : SegmentFiles → Prop
  idle : SegmentFiles → WalManager → Prop
  busy : SegmentFiles → WalManager → AppendCall → Prop

namespace ThreadInvariant

/-- What holds after a step of a call. -/
def After (I : ThreadInvariant) (d : SegmentFiles) (m : WalManager) (call : AppendCall) :
    CallOutcome → Prop
  | .goOn pc => I.busy d m { call with pc }
  | .returned _ => I.idle d m

/-- Each thing that a thread can do keeps the invariant, as far as it is allowed. -/
structure Preserved (codec : WalCodec) (Allowed : WalSystem → WalStep → Prop)
    (I : ThreadInvariant) : Prop where
  «open» : ∀ s options, Allowed s (.open options) → I.closed s.files →
    I.idle (WalManager.open options s.files).1 (WalManager.open options s.files).2
  close : ∀ d m, I.idle d m → I.closed (m.inner.currentWal.sync d).1
  append : ∀ s m record, Allowed s (.append record) → I.idle s.files m →
    I.busy s.files m { records := [record], isBatch := false, pc := .check }
  appendBatch : ∀ s m records, Allowed s (.appendBatch records) → I.idle s.files m →
    I.busy s.files m { records, isBatch := true, pc := .check }
  idleMove : ∀ d m moved wal, wal.file = m.inner.currentWal.file →
    m.inner.currentWal.buffer = moved ++ wal.buffer → I.idle d m →
    I.idle (d.write m.inner.currentWal.file moved) (m.withWal wal)
  busyMove : ∀ d m call moved wal, wal.file = m.inner.currentWal.file →
    m.inner.currentWal.buffer = moved ++ wal.buffer → I.busy d m call →
    I.busy (d.write m.inner.currentWal.file moved) (m.withWal wal) call
  advance : ∀ s m callId call d' m' outcome, s.manager = some m →
    s.calls.lookup callId = some call → Allowed s (.advance callId) → I.busy s.files m call →
    AppendEffect codec s.files m call d' m' outcome → I.After d' m' call outcome

/-- The invariant, in a system with at most one call. -/
structure Holds (I : ThreadInvariant) (s : WalSystem) : Prop where
  closed : s.manager = none → I.closed s.files ∧ s.calls.entries = []
  idle : ∀ m, s.manager = some m → s.calls.entries = [] → I.idle s.files m
  busy : ∀ m callId call, s.manager = some m → s.calls.lookup callId = some call →
    I.busy s.files m call
  single : ∀ callId callId' call call', s.calls.lookup callId = some call →
    s.calls.lookup callId' = some call' → callId = callId'

variable {codec : WalCodec} {Allowed : WalSystem → WalStep → Prop} {I : ThreadInvariant}
  {s : WalSystem}

theorem lookup_of_nil {calls : HashMap ℕ AppendCall} (hnil : calls.entries = []) (callId : ℕ) :
    calls.lookup callId = none := by
  have heq : calls = ∅ := AList.ext hnil
  rw [heq]
  rfl

/-- A call begins. -/
theorem holds_invoke {m : WalManager} (hm : s.manager = some m)
    (hnil : s.calls.entries = []) {records : List WalRecord} {isBatch : Bool}
    (hbusy : I.busy s.files m { records, isBatch, pc := .check }) :
    I.Holds (s.invoke records isBatch) := by
  have hlookup : ∀ callId call,
      (s.calls.insert s.nextCallId { records, isBatch, pc := .check }).lookup callId = some call →
        callId = s.nextCallId ∧ call = { records, isBatch, pc := .check } := by
    intro callId call hcall
    by_cases heq : callId = s.nextCallId
    · rw [heq, AList.lookup_insert] at hcall
      exact ⟨heq, (Option.some.inj hcall).symm⟩
    · rw [AList.lookup_insert_ne heq, lookup_of_nil hnil] at hcall
      contradiction
  refine ⟨?_, ?_, ?_, ?_⟩
  · intro hnone
    have hnone : s.manager = none := hnone
    rw [hm] at hnone
    contradiction
  · intro m' _ hnil'
    have hnone := lookup_of_nil hnil' s.nextCallId
    rw [WalSystem.invoke, AList.lookup_insert] at hnone
    contradiction
  · intro m' callId call hm' hcall
    have hm' : s.manager = some m' := hm'
    obtain ⟨-, rfl⟩ := hlookup callId call hcall
    rw [hm] at hm'
    exact Option.some.inj hm' ▸ hbusy
  · intro callId callId' call call' hcall hcall'
    exact (hlookup callId call hcall).1.trans (hlookup callId' call' hcall').1.symm

/-- The only call takes a step. -/
theorem Holds.settle (h : I.Holds s) {callId : ℕ} {call : AppendCall}
    (hcall : s.calls.lookup callId = some call) {result : WalSystem × CallOutcome} {m' : WalManager}
    (hm' : result.1.manager = some m') (hcalls : result.1.calls = s.calls)
    (hafter : I.After result.1.files m' call result.2) :
    I.Holds (WalSystem.settle callId call result) := by
  obtain ⟨t, outcome⟩ := result
  have hm' : t.manager = some m' := hm'
  have hcalls : t.calls = s.calls := hcalls
  cases outcome with
  | goOn pc =>
      -- it stays the only one
      have hlookup : ∀ callId' call', (t.calls.insert callId { call with pc }).lookup callId'
          = some call' → callId' = callId ∧ call' = { call with pc } := by
        intro callId' call' hcall'
        by_cases heq : callId' = callId
        · rw [heq, AList.lookup_insert] at hcall'
          exact ⟨heq, (Option.some.inj hcall').symm⟩
        · rw [AList.lookup_insert_ne heq, hcalls] at hcall'
          exact absurd (h.single callId' callId call' call hcall' hcall) heq
      refine ⟨?_, ?_, ?_, ?_⟩
      · intro hnone
        have hnone : t.manager = none := hnone
        rw [hm'] at hnone
        contradiction
      · intro m'' _ hnil
        have hnone := lookup_of_nil hnil callId
        rw [WalSystem.settle, AList.lookup_insert] at hnone
        contradiction
      · intro m'' callId' call' hm'' hcall'
        have hm'' : t.manager = some m'' := hm''
        obtain ⟨-, rfl⟩ := hlookup callId' call' hcall'
        rw [hm'] at hm''
        exact Option.some.inj hm'' ▸ hafter
      · intro callId₁ callId₂ call₁ call₂ hcall₁ hcall₂
        exact (hlookup callId₁ call₁ hcall₁).1.trans (hlookup callId₂ call₂ hcall₂).1.symm
  | returned isOk =>
      -- there is no other, so that none is left
      have hlookup : ∀ callId' call', (t.calls.erase callId).lookup callId' ≠ some call' := by
        intro callId' call' hcall'
        obtain ⟨hne, hcall'⟩ := lookup_erase_eq_some_iff.mp hcall'
        rw [hcalls] at hcall'
        exact hne (h.single callId' callId call' call hcall' hcall)
      refine ⟨?_, ?_, ?_, ?_⟩
      · intro hnone
        have hnone : t.manager = none := hnone
        rw [hm'] at hnone
        contradiction
      · intro m'' hm'' _
        have hm'' : t.manager = some m'' := hm''
        rw [hm'] at hm''
        exact Option.some.inj hm'' ▸ hafter
      · intro m'' callId' call' _ hcall'
        exact absurd hcall' (hlookup callId' call')
      · intro callId₁ callId₂ call₁ call₂ hcall₁ _
        exact absurd hcall₁ (hlookup callId₁ call₁)

/-- Bytes that were buffered come into the file. -/
theorem Holds.move (hpreserved : I.Preserved codec Allowed) (h : I.Holds s) {m : WalManager}
    (hm : s.manager = some m) {moved : Bytes} {wal : SegmentWal}
    (hfile : wal.file = m.inner.currentWal.file)
    (hbuffer : m.inner.currentWal.buffer = moved ++ wal.buffer) :
    I.Holds { s with
      files := s.files.write m.inner.currentWal.file moved
      manager := some (m.withWal wal) } := by
  refine ⟨?_, ?_, ?_, h.single⟩
  · intro hnone
    contradiction
  · intro m' hm' hnil
    obtain rfl := Option.some.inj hm'
    exact hpreserved.idleMove s.files m moved wal hfile hbuffer (h.idle m hm hnil)
  · intro m' callId call hm' hcall
    obtain rfl := Option.some.inj hm'
    exact hpreserved.busyMove s.files m call moved wal hfile hbuffer (h.busy m callId call hm hcall)

theorem Holds.step (hpreserved : I.Preserved codec Allowed) (h : I.Holds s) {action : WalStep}
    (hsequential : s.Sequential action) (hallowed : Allowed s action) :
    I.Holds (s.step codec action) := by
  unfold WalSystem.step
  cases hm : s.manager with
  | none =>
      cases action with
      | «open» options =>
          -- no manager is open, so no call is under way
          obtain ⟨hclosed, hnil⟩ := h.closed hm
          refine ⟨?_, ?_, ?_, h.single⟩
          · intro hnone
            contradiction
          · intro m hopened _
            obtain rfl := Option.some.inj hopened
            exact hpreserved.open s options hallowed hclosed
          · intro m callId call _ hcall
            have hnone := lookup_of_nil hnil callId
            have hcall : s.calls.lookup callId = some call := hcall
            rw [hnone] at hcall
            contradiction
      | _ => exact h
  | some m =>
      cases action with
      | «open» options => exact h
      | close =>
          simp only
          split
          · next hnil =>
              refine ⟨fun _ => ⟨hpreserved.close s.files m (h.idle m hm hnil), hnil⟩, ?_, ?_, h.single⟩
              · intro m' hm'
                contradiction
              · intro m' callId call hm'
                contradiction
          · exact h
      | append record =>
          exact holds_invoke hm hsequential
            (hpreserved.append s m record hallowed (h.idle m hm hsequential))
      | appendBatch records =>
          exact holds_invoke hm hsequential
            (hpreserved.appendBatch s m records hallowed (h.idle m hm hsequential))
      | advance callId =>
          simp only
          cases hcall : s.calls.lookup callId with
          | none => exact h
          | some call =>
              -- a step of a call has one of the effects that the invariant survives
              obtain ⟨m', hm', hcalls, heffect⟩ := WalSystem.advance_effect codec hm callId call
              exact h.settle hcall hm' hcalls (hpreserved.advance s m callId call _ m' _ hm hcall
                hallowed (h.busy m callId call hm hcall) heffect)
      -- what moves from the buffer to the file is still there
      | spill count =>
          exact h.move hpreserved hm rfl (List.take_append_drop count m.inner.currentWal.buffer).symm
      | sync =>
          simp only
          split
          · exact h
          · exact h.move hpreserved hm rfl (List.append_nil _).symm

/-- What every step of a thread keeps holds in every state of a run. -/
theorem holds_run (hpreserved : I.Preserved codec Allowed) (hinit : I.closed SegmentFiles.empty)
    {steps : List WalStep}
    (hsequential : Run.Along (WalSystem.step codec) WalSystem.Sequential WalSystem.init steps)
    (hallowed : Run.Along (WalSystem.step codec) Allowed WalSystem.init steps) :
    I.Holds (Run.run (WalSystem.step codec) WalSystem.init steps) := by
  have hboth := hsequential.and hallowed
  refine hboth.invariant I.Holds ?_ ?_
  · intro s action h haction
    exact h.step hpreserved haction.1 haction.2
  · refine ⟨fun _ => ⟨hinit, rfl⟩, ?_, ?_, ?_⟩
    · intro m hm
      contradiction
    · intro m callId call hm
      contradiction
    · intro callId callId' call call' hcall
      contradiction

end ThreadInvariant
end Crabstash

import Crabstash.Storage.ManifestLog

/-!
# The numbers of new tables

A flush takes the number of its table from the `Manifest` that the Lsm keeps in memory, a
compaction from one that it has just read from the file.  Neither counter sees what the
other has given out: the Lsm's does not move when the compaction thread writes an `SST`
line, and the file does not tell of a number whose table is still being written.

What keeps the numbers apart is that every counter has passed the other's numbers when it
is asked for one (`ApartStep`).  For the counter of the Lsm this fails with the first
flush after a compaction.

A counter has passed a number if the file that it was read from had the line of the number
or of a later one (`Listed`).  So a run is safe if that is so at every flush of what
compactions have taken, and at every compaction and every opening of all numbers
(`created_nodup_of_listed`).
-/

namespace Crabstash

open Run

/-- The manifest and its writers; the number of the table that the flush under way, and the
compaction under way, has taken; and the numbers of all tables created, and of those that
compactions have created. -/
structure TableNumbers where
  log : ManifestLog
  flushing : Option ℕ
  compacting : Option ℕ
  created : List ℕ
  compacted : List ℕ

/-- The steps of a flush and of a compaction that have to do with numbers, and opening the
directory again. -/
inductive NumberStep where
  | addWal
  | startFlush
  | finishFlush
  | openCompaction
  | startCompaction
  | deleteInput (level id : ℕ)
  | finishCompaction (level : ℕ)
  | reopen
  deriving DecidableEq, Repr

namespace TableNumbers

/-- `Lsm::open` in a directory without a manifest. -/
def fresh : TableNumbers :=
  { log := ManifestLog.fresh, flushing := none, compacting := none, created := [], compacted := [] }

/-- `inner.manifest` after a change in memory. -/
def setLsm (s : TableNumbers) (manifest : Manifest) : TableNumbers :=
  { s with log := { s.log with lsm := { s.log.lsm with manifest } } }

/-- The steps of `rotate_memtable`, `flush_immutable` and `compact` that have to do with the
manifest; where it is not a step's turn, nothing happens. -/
def step (s : TableNumbers) : NumberStep → TableNumbers
  | .addWal =>
      match s.flushing with
      | some _ => s
      | none =>
          let (walId, manifest) := s.log.lsm.manifest.allocateWalId
          let s := s.setLsm manifest
          { s with log := s.log.writeLsm (.wal walId) }
  | .startFlush =>
      match s.flushing with
      | some _ => s
      | none =>
          let (sstId, manifest) := s.log.lsm.manifest.allocateSstId
          let s := s.setLsm manifest
          { s with flushing := some sstId, created := s.created ++ [sstId] }
  | .finishFlush =>
      match s.flushing with
      | none => s
      | some sstId => { s with log := s.log.writeLsm (.sst 0 sstId), flushing := none }
  | .openCompaction =>
      match s.compacting with
      | some _ => s
      | none => { s with log := s.log.openCompaction }
  | .startCompaction =>
      match s.compacting, s.log.compaction with
      | none, some h =>
          let (newSstId, manifest) := h.manifest.allocateSstId
          { s with
            log := { s.log with compaction := some { h with manifest } }
            compacting := some newSstId
            created := s.created ++ [newSstId]
            compacted := s.compacted ++ [newSstId] }
      | _, _ => s
  | .deleteInput level id =>
      match s.compacting with
      | none => s
      | some _ => { s with log := s.log.writeCompaction (.del level id) }
  | .finishCompaction level =>
      match s.compacting with
      | none => s
      | some newSstId =>
          { s with log := s.log.writeCompaction (.sst level newSstId), compacting := none }
  | .reopen => { s with log := s.log.reopen, flushing := none, compacting := none }

/-- The counter that is asked for a number, or read at an opening, has passed the numbers
that it has not given out itself. -/
def ApartStep (s : TableNumbers) : NumberStep → Prop
  | .startFlush => ∀ id ∈ s.compacted, id < s.log.lsm.manifest.nextSstId
  | .startCompaction => ∀ h ∈ s.log.compaction,
      s.log.lsm.manifest.nextSstId ≤ h.manifest.nextSstId ∧
        ∀ id ∈ s.compacted, id < h.manifest.nextSstId
  | .reopen => ∀ manifest ∈ Manifest.openFile s.log.file, ∀ id ∈ s.created, id < manifest.nextSstId
  | _ => True

instance (s : TableNumbers) : ∀ action, Decidable (s.ApartStep action)
  | .addWal => inferInstanceAs (Decidable True)
  | .startFlush => inferInstanceAs (Decidable (∀ id ∈ _, _))
  | .finishFlush => inferInstanceAs (Decidable True)
  | .openCompaction => inferInstanceAs (Decidable True)
  | .startCompaction => inferInstanceAs (Decidable (∀ h ∈ _, _))
  | .deleteInput _ _ => inferInstanceAs (Decidable True)
  | .finishCompaction _ => inferInstanceAs (Decidable True)
  | .reopen => inferInstanceAs (Decidable (∀ manifest ∈ _, _))

/-- No number has been given out twice, and the counter of the Lsm has passed the numbers
of the flushes. -/
structure Apart (s : TableNumbers) : Prop where
  nodup : s.created.Nodup
  passed : ∀ id ∈ s.created, id ∈ s.compacted ∨ id < s.log.lsm.manifest.nextSstId

theorem nodup_append_singleton {ids : List ℕ} {next : ℕ} (hnodup : ids.Nodup)
    (hlt : ∀ id ∈ ids, id < next) : (ids ++ [next]).Nodup := by
  rw [List.nodup_append]
  refine ⟨hnodup, List.pairwise_singleton .., ?_⟩
  intro id hid next' hnext
  rw [List.mem_singleton.mp hnext]
  exact (hlt id hid).ne

theorem nextSstId_write (h : ManifestHandle) (file : List Char) (line : ManifestLine) :
    h.manifest.nextSstId ≤ (h.write file line).1.manifest.nextSstId := by
  rw [ManifestHandle.manifest_write]
  cases line with
  | sst level id => exact le_max_left _ _
  | del level id => exact le_rfl
  | wal id => exact le_rfl

theorem nextSstId_writeLsm (log : ManifestLog) (line : ManifestLine) :
    log.lsm.manifest.nextSstId ≤ (log.writeLsm line).lsm.manifest.nextSstId :=
  nextSstId_write log.lsm log.file line

@[simp] theorem lsm_writeCompaction (log : ManifestLog) (line : ManifestLine) :
    (log.writeCompaction line).lsm = log.lsm := by
  unfold ManifestLog.writeCompaction
  split <;> rfl

@[simp] theorem lsm_openCompaction (log : ManifestLog) : log.openCompaction.lsm = log.lsm := by
  unfold ManifestLog.openCompaction
  split <;> rfl

/-- Only an opening moves the counter of the Lsm back. -/
theorem nextSstId_step (s : TableNumbers) {action : NumberStep} (hne : action ≠ .reopen) :
    s.log.lsm.manifest.nextSstId ≤ (s.step action).log.lsm.manifest.nextSstId := by
  cases action with
  | addWal =>
      rw [step]
      split
      · exact le_rfl
      · exact nextSstId_writeLsm (s.setLsm (s.log.lsm.manifest.allocateWalId).2).log
          (.wal (s.log.lsm.manifest.allocateWalId).1)
  | startFlush =>
      rw [step]
      split
      · exact le_rfl
      · exact Nat.le_succ _
  | finishFlush =>
      rw [step]
      split
      · exact le_rfl
      · exact nextSstId_writeLsm _ _
  | openCompaction =>
      rw [step]
      split
      · exact le_rfl
      · rw [lsm_openCompaction]
  | startCompaction =>
      rw [step]
      split <;> exact le_rfl
  | deleteInput level id =>
      rw [step]
      split
      · exact le_rfl
      · rw [lsm_writeCompaction]
  | finishCompaction level =>
      -- the lines of the thread are no lines of the Lsm's handle
      rw [step]
      split
      · exact le_rfl
      · rw [lsm_writeCompaction]
  | reopen => exact absurd rfl hne

/-- The handle of the compaction thread comes from an opening, and its counter does not go
back. -/
theorem exists_compaction_step {s : TableNumbers} {action : NumberStep}
    (hne : action ≠ .openCompaction) {handle' : ManifestHandle}
    (hhandle' : handle' ∈ (s.step action).log.compaction) :
    ∃ handle ∈ s.log.compaction, handle.manifest.nextSstId ≤ handle'.manifest.nextSstId := by
  -- a line moves the counter of its handle forward or leaves it
  have hwrite : ∀ line, handle' ∈ (s.log.writeCompaction line).compaction →
      ∃ handle ∈ s.log.compaction, handle.manifest.nextSstId ≤ handle'.manifest.nextSstId := by
    intro line hmem
    unfold ManifestLog.writeCompaction at hmem
    split at hmem
    · exact ⟨handle', hmem, le_rfl⟩
    · next handle hhandle =>
        obtain rfl := Option.some.inj hmem
        exact ⟨handle, hhandle, nextSstId_write handle s.log.file line⟩
  cases action with
  | addWal =>
      rw [step] at hhandle'
      split at hhandle' <;> exact ⟨handle', hhandle', le_rfl⟩
  | startFlush =>
      rw [step] at hhandle'
      split at hhandle' <;> exact ⟨handle', hhandle', le_rfl⟩
  | finishFlush =>
      rw [step] at hhandle'
      split at hhandle' <;> exact ⟨handle', hhandle', le_rfl⟩
  | openCompaction => exact absurd rfl hne
  | startCompaction =>
      rw [step] at hhandle'
      split at hhandle'
      · next handle _ hhandle =>
          obtain rfl := Option.some.inj hhandle'
          exact ⟨handle, hhandle, Nat.le_succ _⟩
      · exact ⟨handle', hhandle', le_rfl⟩
  | deleteInput level id =>
      rw [step] at hhandle'
      split at hhandle'
      · exact ⟨handle', hhandle', le_rfl⟩
      · exact hwrite _ hhandle'
  | finishCompaction level =>
      rw [step] at hhandle'
      split at hhandle'
      · exact ⟨handle', hhandle', le_rfl⟩
      · exact hwrite _ hhandle'
  | reopen =>
      have hmem : handle' ∈ s.log.reopen.compaction := hhandle'
      unfold ManifestLog.reopen at hmem
      split at hmem
      · exact ⟨handle', hmem, le_rfl⟩
      · contradiction

/-- A step that gives out no number and does not move the counter of the Lsm back. -/
theorem Apart.mono {s s' : TableNumbers} (h : s.Apart) (hcreated : s'.created = s.created)
    (hcompacted : s'.compacted = s.compacted)
    (hnext : s.log.lsm.manifest.nextSstId ≤ s'.log.lsm.manifest.nextSstId) : s'.Apart := by
  refine ⟨hcreated ▸ h.nodup, ?_⟩
  rw [hcreated, hcompacted]
  intro id hid
  exact (h.passed id hid).imp_right fun hlt => hlt.trans_le hnext

theorem Apart.startFlush {s : TableNumbers} (h : s.Apart)
    (hpassed : ∀ id ∈ s.compacted, id < s.log.lsm.manifest.nextSstId) :
    (s.step .startFlush).Apart := by
  have hbelow : ∀ id ∈ s.created, id < s.log.lsm.manifest.nextSstId := fun id hid =>
    (h.passed id hid).elim (hpassed id) fun hlt => hlt
  rw [step]
  split
  · exact h
  · refine ⟨nodup_append_singleton h.nodup hbelow, ?_⟩
    intro id hid
    right
    show id < s.log.lsm.manifest.nextSstId + 1
    rcases List.mem_append.mp hid with hid | hid
    · exact Nat.lt_succ_of_lt (hbelow id hid)
    · rw [List.mem_singleton.mp hid]
      exact Nat.lt_succ_self _

theorem Apart.startCompaction {s : TableNumbers} (h : s.Apart)
    (hbelow : ∀ handle ∈ s.log.compaction, ∀ id ∈ s.created, id < handle.manifest.nextSstId) :
    (s.step .startCompaction).Apart := by
  rw [step]
  split
  · next handle _ hhandle =>
      refine ⟨nodup_append_singleton h.nodup (hbelow handle hhandle), ?_⟩
      intro id hid
      rcases List.mem_append.mp hid with hid | hid
      · exact (h.passed id hid).imp_left fun hmem => List.mem_append_left _ hmem
      · exact Or.inl (List.mem_append_right _ hid)
  · exact h

theorem Apart.step {s : TableNumbers} {action : NumberStep} (h : s.Apart)
    (hapart : s.ApartStep action) : (s.step action).Apart := by
  cases action with
  | addWal =>
      refine h.mono ?_ ?_ (s.nextSstId_step NumberStep.noConfusion)
      · rw [TableNumbers.step]
        split <;> rfl
      · rw [TableNumbers.step]
        split <;> rfl
  | startFlush => exact h.startFlush hapart
  | finishFlush =>
      refine h.mono ?_ ?_ (s.nextSstId_step NumberStep.noConfusion)
      · rw [TableNumbers.step]
        split <;> rfl
      · rw [TableNumbers.step]
        split <;> rfl
  | openCompaction =>
      refine h.mono ?_ ?_ (s.nextSstId_step NumberStep.noConfusion)
      · rw [TableNumbers.step]
        split <;> rfl
      · rw [TableNumbers.step]
        split <;> rfl
  | startCompaction =>
      refine h.startCompaction fun handle hhandle id hid => ?_
      obtain ⟨hlsm, hcompacted⟩ := hapart handle hhandle
      exact (h.passed id hid).elim (hcompacted id) fun hlt => hlt.trans_le hlsm
  | deleteInput level id =>
      refine h.mono ?_ ?_ (s.nextSstId_step NumberStep.noConfusion)
      · rw [TableNumbers.step]
        split <;> rfl
      · rw [TableNumbers.step]
        split <;> rfl
  | finishCompaction level =>
      refine h.mono ?_ ?_ (s.nextSstId_step NumberStep.noConfusion)
      · rw [TableNumbers.step]
        split <;> rfl
      · rw [TableNumbers.step]
        split <;> rfl
  | reopen =>
      rw [TableNumbers.step]
      cases hopen : Manifest.openFile s.log.file with
      | none =>
          have hsame : s.log.reopen = s.log := by
            unfold ManifestLog.reopen
            rw [hopen]
          refine h.mono ?_ ?_ ?_
          · rfl
          · rfl
          · rw [hsame]
      | some manifest =>
          -- the counter is read back from the file, and is past what was created
          refine ⟨h.nodup, ?_⟩
          intro id hid
          right
          have hlt := hapart manifest hopen id hid
          unfold ManifestLog.reopen
          rw [hopen]
          exact hlt

/-- In every run in which each counter has passed the other's numbers when it is asked for
one, no two tables are created with the same number. -/
theorem created_nodup_run (steps : List NumberStep) (hapart : Along step ApartStep fresh steps) :
    (run step fresh steps).created.Nodup := by
  have hfresh : fresh.Apart := ⟨List.nodup_nil, fun id hid => absurd hid List.not_mem_nil⟩
  have hrun : (run step fresh steps).Apart :=
    hapart.invariant Apart (fun _ _ h hstep => h.step hstep) hfresh
  exact hrun.nodup

/-- Two flushes, a compaction, and after a reopening a flush and another compaction. -/
theorem created_nodup_secondSession :
    (run step fresh [.addWal, .startFlush, .finishFlush, .addWal, .startFlush, .finishFlush,
      .openCompaction, .startCompaction, .deleteInput 0 1, .deleteInput 0 2, .finishCompaction 1,
      .reopen, .addWal, .startFlush, .finishFlush, .openCompaction, .startCompaction,
      .finishCompaction 1]).created.Nodup :=
  created_nodup_run _ (by decide +kernel)

/-- Four flushes, their compaction, and a flush: the last two tables are both number 5. -/
theorem not_created_nodup :
    ¬ (run step fresh [.addWal, .startFlush, .finishFlush, .addWal, .startFlush, .finishFlush,
      .addWal, .startFlush, .finishFlush, .addWal, .startFlush, .finishFlush,
      .openCompaction, .startCompaction, .deleteInput 0 1, .deleteInput 0 2, .deleteInput 0 3,
      .deleteInput 0 4, .finishCompaction 1, .addWal, .startFlush]).created.Nodup := by
  decide +kernel

/-! ## The lines behind the counters -/

/-- The file has the line of a table with this number, or with a later one. -/
def Listed (file : List Char) (id : ℕ) : Prop :=
  ∃ lines ∈ Manifest.readLines file, ∃ level id', ManifestLine.sst level id' ∈ lines ∧ id ≤ id'

theorem Listed.exists_lt {file : List Char} {id : ℕ} (h : Listed file id) :
    ∃ manifest ∈ Manifest.openFile file, id < manifest.nextSstId := by
  obtain ⟨lines, hlines, hline⟩ := h
  refine ⟨Manifest.load lines, ?_, (Manifest.lt_nextSstId_load_iff lines id).mpr (Or.inr hline)⟩
  exact Option.mem_map_of_mem Manifest.load hlines

end TableNumbers

/-- The numbers, with the file as it was when the counter of the Lsm was read from it, and as it
was when that of the compaction was. -/
structure ReadNumbers where
  numbers : TableNumbers
  lsmRead : List Char
  compactionRead : List Char

namespace ReadNumbers

open TableNumbers

/-- Nothing has been read. -/
def fresh : ReadNumbers := { numbers := TableNumbers.fresh, lsmRead := [], compactionRead := [] }

/-- The numbers after a step, with the file of an opening noted. -/
def step (s : ReadNumbers) (action : NumberStep) : ReadNumbers :=
  { numbers := s.numbers.step action
    lsmRead :=
      match action with
      | .reopen => s.numbers.log.file
      | _ => s.lsmRead
    compactionRead :=
      match action, s.numbers.compacting with
      | .openCompaction, none => s.numbers.log.file
      | _, _ => s.compactionRead }

/-- The file that the counter was read from has the lines of the numbers it has to pass: for a
flush those that compactions have taken, for a compaction and at an opening all of them. -/
def ListedStep (s : ReadNumbers) : NumberStep → Prop
  | .startFlush => ∀ id ∈ s.numbers.compacted, Listed s.lsmRead id
  | .startCompaction => ∀ id ∈ s.numbers.created, Listed s.compactionRead id
  | .reopen => ∀ id ∈ s.numbers.created, Listed s.numbers.log.file id
  | _ => True

/-- The counters are at least what the files say that they were read from. -/
structure Counted (s : ReadNumbers) : Prop where
  apart : s.numbers.Apart
  lsm : ∀ manifest ∈ Manifest.openFile s.lsmRead,
    manifest.nextSstId ≤ s.numbers.log.lsm.manifest.nextSstId
  compaction : ∀ handle ∈ s.numbers.log.compaction,
    ∀ manifest ∈ Manifest.openFile s.compactionRead,
      manifest.nextSstId ≤ handle.manifest.nextSstId

theorem counted_fresh : fresh.Counted where
  apart := ⟨List.nodup_nil, fun id hid => absurd hid List.not_mem_nil⟩
  lsm := by
    intro manifest hopen
    obtain rfl := Option.some.inj hopen
    exact le_rfl
  compaction := nofun

/-- A step that reads nothing. -/
theorem Counted.mono {s : ReadNumbers} (h : s.Counted) {action : NumberStep}
    (hapart : (s.numbers.step action).Apart) (hreopen : action ≠ .reopen)
    (hopen : action ≠ .openCompaction) :
    ({ s with numbers := s.numbers.step action } : ReadNumbers).Counted where
  apart := hapart
  lsm manifest hread := (h.lsm manifest hread).trans (s.numbers.nextSstId_step hreopen)
  compaction handle' hhandle' manifest hread := by
    obtain ⟨handle, hhandle, hle⟩ := exists_compaction_step hopen hhandle'
    exact (h.compaction handle hhandle manifest hread).trans hle

theorem Counted.step {s : ReadNumbers} {action : NumberStep} (h : s.Counted)
    (hlisted : s.ListedStep action) : (s.step action).Counted := by
  cases action with
  | addWal => exact h.mono (h.apart.step trivial) NumberStep.noConfusion NumberStep.noConfusion
  | startFlush =>
      refine h.mono (h.apart.startFlush fun id hid => ?_)
        NumberStep.noConfusion NumberStep.noConfusion
      obtain ⟨manifest, hread, hlt⟩ := (hlisted id hid).exists_lt
      exact hlt.trans_le (h.lsm manifest hread)
  | finishFlush => exact h.mono (h.apart.step trivial) NumberStep.noConfusion NumberStep.noConfusion
  | openCompaction =>
      have hapart : s.numbers.ApartStep .openCompaction := trivial
      refine ⟨h.apart.step hapart, ?_, ?_⟩
      · intro manifest hread
        exact (h.lsm manifest hread).trans (s.numbers.nextSstId_step NumberStep.noConfusion)
      · intro handle' hhandle' manifest hread
        cases hcompacting : s.numbers.compacting with
        | some newSstId =>
            -- a compaction is under way, and nothing is read
            have hsame : s.numbers.step .openCompaction = s.numbers := by
              rw [TableNumbers.step, hcompacting]
            have hkept : (s.step .openCompaction).compactionRead = s.compactionRead := by
              simp only [ReadNumbers.step, hcompacting]
            have hhandle' : handle' ∈ (s.numbers.step .openCompaction).log.compaction := hhandle'
            rw [hsame] at hhandle'
            rw [hkept] at hread
            exact h.compaction handle' hhandle' manifest hread
        | none =>
            have hfile : (s.step .openCompaction).compactionRead = s.numbers.log.file := by
              simp only [ReadNumbers.step, hcompacting]
            have hopened : (s.numbers.step .openCompaction).log = s.numbers.log.openCompaction := by
              rw [TableNumbers.step, hcompacting]
            have hhandle' : handle' ∈ (s.numbers.step .openCompaction).log.compaction := hhandle'
            rw [hfile] at hread
            rw [hopened, ManifestLog.openCompaction, Option.mem_def.mp hread] at hhandle'
            obtain rfl := Option.some.inj hhandle'
            exact le_rfl
  | startCompaction =>
      refine h.mono (h.apart.startCompaction fun handle hhandle id hid => ?_)
        NumberStep.noConfusion NumberStep.noConfusion
      obtain ⟨manifest, hread, hlt⟩ := (hlisted id hid).exists_lt
      exact hlt.trans_le (h.compaction handle hhandle manifest hread)
  | deleteInput level id =>
      exact h.mono (h.apart.step trivial) NumberStep.noConfusion NumberStep.noConfusion
  | finishCompaction level =>
      exact h.mono (h.apart.step trivial) NumberStep.noConfusion NumberStep.noConfusion
  | reopen =>
      have hapart : s.numbers.ApartStep .reopen := by
        intro manifest hread id hid
        obtain ⟨manifest', hread', hlt⟩ := (hlisted id hid).exists_lt
        rwa [Option.mem_unique hread hread']
      refine ⟨h.apart.step hapart, ?_, ?_⟩
      · intro manifest hread
        have hread : Manifest.openFile s.numbers.log.file = some manifest := hread
        show manifest.nextSstId ≤ s.numbers.log.reopen.lsm.manifest.nextSstId
        rw [ManifestLog.reopen, hread]
      · intro handle' hhandle' manifest hread
        have hhandle' : handle' ∈ (s.numbers.step .reopen).log.compaction := hhandle'
        obtain ⟨handle, hhandle, hle⟩ := exists_compaction_step NumberStep.noConfusion hhandle'
        exact (h.compaction handle hhandle manifest hread).trans hle

theorem numbers_run (s : ReadNumbers) (steps : List NumberStep) :
    (run step s steps).numbers = run TableNumbers.step s.numbers steps := by
  induction steps generalizing s with
  | nil => rfl
  | cons action rest ih => exact ih (s.step action)

/-- In every run in which each counter has been read from a file with the lines of the numbers it
has to pass, no two tables are created with the same number. -/
theorem created_nodup_of_listed (steps : List NumberStep)
    (hlisted : Along step ListedStep fresh steps) :
    (run TableNumbers.step TableNumbers.fresh steps).created.Nodup := by
  have hrun : (run step fresh steps).Counted :=
    hlisted.invariant Counted (fun _ _ h hstep => h.step hstep) counted_fresh
  have hnumbers : (run step fresh steps).numbers = run TableNumbers.step TableNumbers.fresh steps :=
    numbers_run fresh steps
  rw [← hnumbers]
  exact hrun.apart.nodup

end ReadNumbers
end Crabstash

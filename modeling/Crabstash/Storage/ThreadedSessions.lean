import Crabstash.Storage.CompactedScans

/-!
# Sessions and their compaction thread

`Lsm::open` starts the compaction thread of the session, and every flush wakes it.  It reads the
manifest from the file and takes a task to it, merges the inputs into a table under the next
number that the file knows of, takes the inputs away and lists the table.  The Lsm hears nothing
of it and goes on with its own manifest; so its next flush may take the same number and truncate
the table, and then what the inputs had is in no table after the next open.

Here the thread takes its steps between the operations of the session.  A look at the manifest
finds what one between two operations finds, since the levels change with a single line of a
flush, and the steps of a round change only the directory.  Lines are appended to the manifest,
as they are from the second session on; `ManifestWriters` has the first.

What a sync makes durable (`newest_reopen`) is said of runs in which the thread finds nothing to
do whenever it looks (`KeptStep`); it may look at any time, also between the sync and the end of
the session.  Such a run is one of the session alone (`lsm_run`).
-/

namespace Crabstash

open Crabstash.Action Run

/-- A task that the thread has taken, its own manifest, and the steps still to come. -/
structure CompactionRound where
  task : CompactionTask
  manifest : Manifest
  steps : List Compactor.InstallStep

/-- The database of a session and the round of its compaction thread that is under way. -/
structure ThreadedLsm where
  lsm : Lsm
  round : Option CompactionRound

/-- The thread opens the manifest, or takes the next step of its round. -/
inductive RoundStep where
  | look
  | install
  deriving DecidableEq, Repr

/-- A step of the session, or of the compaction thread beside it. -/
inductive ThreadedStep where
  | session (op : SessionOp)
  | thread (action : RoundStep)

namespace ThreadedLsm

/-- A new database. -/
def init (memtableSize : ℕ) : ThreadedLsm :=
  { lsm := Lsm.openDir memtableSize Dir.empty, round := none }

/-- `Manifest::open` and `pick_compaction`; the table is merged from the inputs as they are. -/
def look (s : ThreadedLsm) : ThreadedLsm :=
  match s.round, s.lsm.dir.compactor.pickCompaction with
  | none, some task =>
      { s with
        round := some
          { task, manifest := s.lsm.dir.compactor.manifest
            steps := Compactor.compactSteps s.lsm.dir.compactor task } }
  | _, _ => s

/-- The next step of `compact`, in the directory as it is by now. -/
def install (s : ThreadedLsm) : ThreadedLsm :=
  match s.round with
  | none => s
  | some { steps := [], .. } => { s with round := none }
  | some { task, manifest, steps := action :: rest } =>
      let c := Compactor.installStep task { dir := s.lsm.dir, manifest } action
      { lsm := { s.lsm with dir := c.dir }
        round := some { task, manifest := c.manifest, steps := rest } }

/-- The directory after a step of the compaction thread. -/
def threadStep (s : ThreadedLsm) : RoundStep → ThreadedLsm
  | .look => s.look
  | .install => s.install

/-- A session ends with its thread; a round that is under way then is broken off by a crash, and
an orderly end waits for it. -/
def step (s : ThreadedLsm) : ThreadedStep → ThreadedLsm
  | .session (.reopen survive memtableSize) =>
      { lsm := s.lsm.sessionStep (.reopen survive memtableSize), round := none }
  | .session op => { s with lsm := s.lsm.sessionStep op }
  | .thread action => s.threadStep action

/-- A step of the session keeps what is durable, and the thread finds nothing to do. -/
def KeptStep (s : ThreadedLsm) : ThreadedStep → Prop
  | .session op => s.lsm.KeptSession op
  | .thread .look => s.lsm.dir.compactor.pickCompaction = none
  | .thread .install => True

instance (s : ThreadedLsm) : ∀ action, Decidable (s.KeptStep action)
  | .session op => inferInstanceAs (Decidable (s.lsm.KeptSession op))
  | .thread .look => inferInstanceAs (Decidable (_ = none))
  | .thread .install => inferInstanceAs (Decidable True)

/-! ## A thread that finds nothing to do -/

/-- The call of `sync`. -/
def synced (s : ThreadedLsm) (faults : Faults IoCall) : ThreadedLsm :=
  { s with lsm := (exec (Lsm.sync faults) s.lsm).2 }

/-- In a second session, four flushes, a round over their tables, and a fifth flush, which writes
its table over that of the round. -/
def fifthFlush : List ThreadedStep :=
  [ThreadedStep.session (.reopen 0 2), .session (.op (.put [9] [9])),
    .session (.op (.put [1] [1])), .session (.op (.put [2] [2])), .session (.op (.put [3] [3])),
    .thread .look] ++
    List.replicate 11 (ThreadedStep.thread .install) ++
    [ThreadedStep.session (.op (.put [4] [4]))]

/-- The key of the first flush is gone after the next open. -/
theorem newest_reopen_round_ne :
    let s := run step (init 2) fifthFlush
    (exec (Lsm.sync noFaults) s.lsm).1 = .ok () ∧ s.lsm.Listed ∧
      s.lsm.newest [9] = some [9] ∧
        (Lsm.openDir 2 ((s.synced noFaults).lsm.endSession 0)).newest [9] = none := by
  decide +kernel

end ThreadedLsm
end Crabstash

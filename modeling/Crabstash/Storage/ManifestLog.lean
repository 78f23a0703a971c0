import Crabstash.Foundations.Run
import Crabstash.Storage.ManifestFile

/-!
# Two writers of one manifest

The Lsm keeps one handle of the manifest file for a whole session, and the compaction
thread opens one of its own for every compaction.  What the file says in the end should
be what all calls have written, in that order.  A call writes its line at once here;
`ManifestWriters` takes the calls apart and reads the file back.

A handle of `Manifest::open` appends, and whole lines of two of them stay whole.  The handle
of `Manifest::create`, which the first session in a directory has, goes on where it wrote
last.  As soon as the compaction thread has written something, that is in the middle of the
file, and the next lines of the Lsm are written over those of the thread.
-/

namespace Crabstash

open Run

/-- The file, the handle of the Lsm, the handle that the compaction thread has open, and
the lines that have been written through either, in order. -/
structure ManifestLog where
  file : List Char
  lsm : ManifestHandle
  compaction : Option ManifestHandle
  written : List ManifestLine

/-- A line is written through one of the handles, the compaction thread reads the manifest, or
the directory is opened again. -/
inductive LogStep where
  | lsm (line : ManifestLine)
  | openCompaction
  | compaction (line : ManifestLine)
  | reopen
  deriving DecidableEq, Repr

namespace ManifestLog

/-- `Lsm::open` in a directory without a manifest. -/
def fresh : ManifestLog :=
  { file := [], lsm := ManifestHandle.create, compaction := none, written := [] }

/-- A call through the handle of the Lsm, with its line in one piece. -/
def writeLsm (s : ManifestLog) (line : ManifestLine) : ManifestLog :=
  { s with
    lsm := (s.lsm.write s.file line).1
    file := (s.lsm.write s.file line).2
    written := s.written ++ [line] }

/-- A call through the handle of the compaction thread, with its line in one piece. -/
def writeCompaction (s : ManifestLog) (line : ManifestLine) : ManifestLog :=
  match s.compaction with
  | none => s
  | some h =>
      { s with
        compaction := some (h.write s.file line).1
        file := (h.write s.file line).2
        written := s.written ++ [line] }

/-- The compaction thread opens the manifest. -/
def openCompaction (s : ManifestLog) : ManifestLog :=
  match Manifest.openFile s.file with
  | none => s
  | some manifest => { s with compaction := some { manifest, mode := .append } }

/-- The database closed and opened again.  A file that `load` cannot read is not opened. -/
def reopen (s : ManifestLog) : ManifestLog :=
  match Manifest.openFile s.file with
  | none => s
  | some manifest => { s with lsm := { manifest, mode := .append }, compaction := none }

/-- The file and its handles after a step. -/
def step (s : ManifestLog) : LogStep → ManifestLog
  | .lsm line => s.writeLsm line
  | .openCompaction => s.openCompaction
  | .compaction line => s.writeCompaction line
  | .reopen => s.reopen

/-- The Lsm writes only where its handle is at the end of the file. -/
def AtEndStep (s : ManifestLog) : LogStep → Prop
  | .lsm _ => s.lsm.AtEnd s.file
  | _ => True

instance (s : ManifestLog) : ∀ action, Decidable (s.AtEndStep action)
  | .lsm _ => inferInstanceAs (Decidable (ManifestHandle.AtEnd _ _))
  | .openCompaction => inferInstanceAs (Decidable True)
  | .compaction _ => inferInstanceAs (Decidable True)
  | .reopen => inferInstanceAs (Decidable True)

/-- The file is the text of the lines written, and the compaction thread appends. -/
structure Faithful (s : ManifestLog) : Prop where
  file : s.file = s.written.flatMap ManifestLine.text
  compaction : ∀ h ∈ s.compaction, h.mode = .append

theorem flatMap_text_append (written : List ManifestLine) (line : ManifestLine) :
    (written ++ [line]).flatMap ManifestLine.text =
      written.flatMap ManifestLine.text ++ line.text := by
  simp

theorem Faithful.step {s : ManifestLog} (h : s.Faithful) {action : LogStep}
    (hend : s.AtEndStep action) : (s.step action).Faithful := by
  cases action with
  | lsm line =>
      refine ⟨?_, h.compaction⟩
      show (s.lsm.write s.file line).2 = _
      rw [ManifestHandle.write_atEnd hend, h.file]
      exact (flatMap_text_append s.written line).symm
  | openCompaction =>
      rw [ManifestLog.step, openCompaction]
      split
      · exact h
      · refine ⟨h.file, ?_⟩
        intro handle hhandle
        rw [← Option.some.inj hhandle]
  | compaction line =>
      rw [ManifestLog.step, writeCompaction]
      split
      · exact h
      · next handle hhandle =>
          have happend := h.compaction handle hhandle
          have hatEnd : handle.AtEnd s.file := ManifestHandle.atEnd_of_append happend s.file
          refine ⟨?_, ?_⟩
          · show (handle.write s.file line).2 = _
            rw [ManifestHandle.write_atEnd hatEnd, h.file]
            exact (flatMap_text_append s.written line).symm
          · intro handle' hhandle'
            rw [← Option.some.inj hhandle', ManifestHandle.write, happend]
  | reopen =>
      rw [ManifestLog.step, reopen]
      split
      · exact h
      · exact ⟨h.file, fun handle hhandle => absurd hhandle (Option.not_mem_none _)⟩

end ManifestLog
end Crabstash

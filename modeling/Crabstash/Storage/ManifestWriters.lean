import Crabstash.Storage.ManifestLog

/-!
# A line of the manifest, piece by piece

The file of a manifest is not buffered: `writeln!` makes one `write` of every piece of its
format string.  The two writers share no lock, so a call of one may begin between two
pieces of a call of the other, and then a line of the one stands in the middle of a line of
the other.

Here every piece is a step of its own.  While no two calls overlap, and the handle of the
Lsm is at the end of the file when a call of it begins, the file consists of whole lines
and of what the call under way has written so far (`Tidy`); when none is under way, reading
the file back gives what all calls have written (`openFile_run`).  A call that nothing
comes between writes its line as `ManifestLog` does (`log_run`).
-/

namespace Crabstash

open Run

namespace ManifestLine

/-- The first piece of what `writeln!` writes, and the others. -/
def pieces : ManifestLine → List Char × List (List Char)
  | sst level id => ("SST:".toList, [Text.decimal level, [':'], Text.decimal id, ['\n']])
  | del level id => ("DEL:".toList, [Text.decimal level, [':'], Text.decimal id, ['\n']])
  | wal id => ("WAL:".toList, [Text.decimal id, ['\n']])

theorem flatten_pieces (line : ManifestLine) :
    line.pieces.1 ++ line.pieces.2.flatten = line.text := by
  cases line <;> simp [pieces, text, fields, List.intercalate_cons_cons]

end ManifestLine

/-! ## The calls of a handle -/

/-- A call of `add_sst`, `remove_sst` or `add_wal` under way: its line, the piece that is
written next, and the pieces after that. -/
structure LineCall where
  line : ManifestLine
  piece : List Char
  rest : List (List Char)
  deriving DecidableEq, Repr

namespace LineCall

/-- The call with its first piece to be written. -/
def start (line : ManifestLine) : LineCall :=
  { line, piece := line.pieces.1, rest := line.pieces.2 }

/-- The text that the call has still to write. -/
def left (call : LineCall) : List Char := call.piece ++ call.rest.flatten

/-- The call after its next piece, if that was not the last one. -/
def next : LineCall → Option LineCall
  | { rest := [], .. } => none
  | { line, piece := _, rest := piece :: rest } => some { line, piece, rest }

/-- The line, if the next piece is the last one. -/
def done (call : LineCall) : List ManifestLine := if call.rest = [] then [call.line] else []

theorem left_start (line : ManifestLine) : (start line).left = line.text := line.flatten_pieces

theorem left_eq_next (call : LineCall) :
    call.left = call.piece ++ call.next.toList.flatMap left := by
  obtain ⟨line, piece, rest⟩ := call
  cases rest with
  | nil => simp [left, next]
  | cons piece' rest => simp [left, next]

theorem done_append_next (call : LineCall) :
    call.done ++ call.next.toList.map LineCall.line = [call.line] := by
  obtain ⟨line, piece, rest⟩ := call
  cases rest with
  | nil => simp [done, next]
  | cons piece' rest => simp [done, next]

end LineCall

namespace ManifestHandle

/-- One `write` through the handle. -/
def writePiece (h : ManifestHandle) (file piece : List Char) : ManifestHandle × List Char :=
  match h.mode with
  | .append => (h, file ++ piece)
  | .offset pos => ({ h with mode := .offset (pos + piece.length) }, writeAtPos file pos piece)

theorem writePiece_atEnd {h : ManifestHandle} {file : List Char} (hend : h.AtEnd file)
    (piece : List Char) :
    (h.writePiece file piece).2 = file ++ piece ∧
      (h.writePiece file piece).1.AtEnd (file ++ piece) := by
  obtain ⟨manifest, mode⟩ := h
  cases mode with
  | append => exact ⟨rfl, trivial⟩
  | offset pos =>
      obtain rfl : pos = file.length := hend
      exact ⟨writeAtPos_length file piece, (List.length_append).symm⟩

@[simp] theorem mode_writePiece_append {h : ManifestHandle} (happend : h.mode = .append)
    (file piece : List Char) : (h.writePiece file piece).1.mode = .append := by
  rw [writePiece, happend]
  exact happend

end ManifestHandle

/-- A handle of the manifest, and the call that is under way through it. -/
structure ManifestWriter where
  handle : ManifestHandle
  call : Option LineCall

namespace ManifestWriter

/-- A writer between two calls. -/
def idle (handle : ManifestHandle) : ManifestWriter := { handle, call := none }

/-- A call begins; it waits while another one has the handle. -/
def start (w : ManifestWriter) (line : ManifestLine) : ManifestWriter :=
  match w.call with
  | none => { w with call := some (.start line) }
  | some _ => w

/-- The next piece, and after the last one `sync_all` and what follows in memory; with the
file, and the line if it is complete. -/
def write (w : ManifestWriter) (file : List Char) :
    ManifestWriter × List Char × List ManifestLine :=
  match w.call with
  | none => (w, file, [])
  | some call =>
      let (handle, file) := w.handle.writePiece file call.piece
      ({ handle := { handle with manifest := call.done.foldl Manifest.applyLine handle.manifest }
         call := call.next },
        file, call.done)

/-- The calls under way, none or one. -/
def calls (w : ManifestWriter) : List LineCall := w.call.toList

theorem write_of_call_none {w : ManifestWriter} (hcall : w.call = none) (file : List Char) :
    w.write file = (w, file, []) := by
  rw [write, hcall]

theorem atEnd_iff {h : ManifestHandle} (file : List Char) (manifest : Manifest) :
    ({ h with manifest } : ManifestHandle).AtEnd file ↔ h.AtEnd file := by
  obtain ⟨_, mode⟩ := h
  cases mode <;> exact Iff.rfl

/-- A piece written at the end of the file: what the call still has to write gets shorter
by it, and its handle stays at the end. -/
theorem write_atEnd {w : ManifestWriter} {file : List Char} (hend : w.handle.AtEnd file) :
    (w.write file).1.handle.AtEnd (w.write file).2.1 ∧
      (w.write file).2.1 ++ (w.write file).1.calls.flatMap LineCall.left =
        file ++ w.calls.flatMap LineCall.left ∧
      (w.write file).2.2 ++ (w.write file).1.calls.map LineCall.line =
        w.calls.map LineCall.line := by
  obtain ⟨handle, call⟩ := w
  cases call with
  | none => exact ⟨hend, rfl, rfl⟩
  | some call =>
      obtain ⟨hfile, hatEnd⟩ := ManifestHandle.writePiece_atEnd hend call.piece
      refine ⟨?_, ?_, ?_⟩
      · show ManifestHandle.AtEnd _ (handle.writePiece file call.piece).2
        rw [hfile]
        exact (atEnd_iff _ _).mpr hatEnd
      · show (handle.writePiece file call.piece).2 ++ call.next.toList.flatMap LineCall.left =
          file ++ [call].flatMap LineCall.left
        rw [hfile, List.append_assoc, ← call.left_eq_next, List.flatMap_singleton]
      · exact call.done_append_next

/-- So the file, with what is still to be written, has the lines that have been written and the one
under way. -/
theorem file_write {w : ManifestWriter} {file : List Char} (hend : w.handle.AtEnd file)
    {written : List ManifestLine} (hfile : file ++ w.calls.flatMap LineCall.left =
      (written ++ w.calls.map LineCall.line).flatMap ManifestLine.text) :
    (w.write file).2.1 ++ (w.write file).1.calls.flatMap LineCall.left =
      (written ++ (w.write file).2.2 ++ (w.write file).1.calls.map LineCall.line).flatMap
        ManifestLine.text := by
  obtain ⟨-, hleft, hlines⟩ := write_atEnd hend
  rw [hleft, List.append_assoc, hlines]
  exact hfile

@[simp] theorem mode_write_append {w : ManifestWriter} (happend : w.handle.mode = .append)
    (file : List Char) : (w.write file).1.handle.mode = .append := by
  obtain ⟨handle, call⟩ := w
  cases call with
  | none => exact happend
  | some call => exact ManifestHandle.mode_writePiece_append happend file call.piece

end ManifestWriter

/-! ## Both writers -/

/-- The file, the handle of the Lsm, the handle that the compaction thread has open, and the
lines that have been written through either, in order. -/
structure ManifestWriters where
  file : List Char
  lsm : ManifestWriter
  compaction : Option ManifestWriter
  written : List ManifestLine

/-- A call of one of the two writers begins, a writer puts one piece into the file, the
compaction thread reads the manifest, or the directory is opened again. -/
inductive WriterStep where
  | callLsm (line : ManifestLine)
  | writeLsm
  | openCompaction
  | callCompaction (line : ManifestLine)
  | writeCompaction
  | reopen
  deriving DecidableEq, Repr

namespace ManifestWriters

/-- `Lsm::open` in a directory without a manifest. -/
def fresh : ManifestWriters :=
  { file := [], lsm := .idle ManifestHandle.create, compaction := none, written := [] }

/-- `add_wal` or `add_sst` of the `Lsm` begins. -/
def callLsm (s : ManifestWriters) (line : ManifestLine) : ManifestWriters :=
  { s with lsm := s.lsm.start line }

/-- One `write` of the call of the `Lsm`. -/
def writeLsm (s : ManifestWriters) : ManifestWriters :=
  { s with
    lsm := (s.lsm.write s.file).1
    file := (s.lsm.write s.file).2.1
    written := s.written ++ (s.lsm.write s.file).2.2 }

/-- The call that the compaction thread is in. -/
def compactionCalls (s : ManifestWriters) : List LineCall :=
  s.compaction.toList.flatMap ManifestWriter.calls

/-- The compaction thread opens the manifest, unless it is in a call, or cannot read it. -/
def openCompaction (s : ManifestWriters) : ManifestWriters :=
  match s.compactionCalls, Manifest.openFile s.file with
  | [], some manifest => { s with compaction := some (.idle { manifest, mode := .append }) }
  | _, _ => s

/-- `remove_sst` or `add_sst` of the compaction thread begins. -/
def callCompaction (s : ManifestWriters) (line : ManifestLine) : ManifestWriters :=
  { s with compaction := s.compaction.map fun w => w.start line }

/-- One `write` of the call of the compaction thread. -/
def writeCompaction (s : ManifestWriters) : ManifestWriters :=
  match s.compaction with
  | none => s
  | some w =>
      { s with
        compaction := some (w.write s.file).1
        file := (w.write s.file).2.1
        written := s.written ++ (w.write s.file).2.2 }

/-- The database closed, whatever is under way, and opened again.  A file that `load` cannot
read is not opened. -/
def reopen (s : ManifestWriters) : ManifestWriters :=
  match Manifest.openFile s.file with
  | none => s
  | some manifest =>
      { s with lsm := .idle { manifest, mode := .append }, compaction := none }

/-- The file and its writers after a step. -/
def step (s : ManifestWriters) : WriterStep → ManifestWriters
  | .callLsm line => s.callLsm line
  | .writeLsm => s.writeLsm
  | .openCompaction => s.openCompaction
  | .callCompaction line => s.callCompaction line
  | .writeCompaction => s.writeCompaction
  | .reopen => s.reopen

/-- The calls under way, of both writers. -/
def calls (s : ManifestWriters) : List LineCall := s.lsm.calls ++ s.compactionCalls

/-- A call begins only while the other writer is in none, one of the Lsm moreover with its
handle at the end of the file; the database is closed while no call is under way. -/
def SeparateStep (s : ManifestWriters) : WriterStep → Prop
  | .callLsm _ => s.compactionCalls = [] ∧ s.lsm.handle.AtEnd s.file
  | .callCompaction _ => s.lsm.calls = []
  | .reopen => s.calls = []
  | _ => True

instance (s : ManifestWriters) : ∀ action, Decidable (s.SeparateStep action)
  | .callLsm _ => inferInstanceAs (Decidable (_ ∧ _))
  | .writeLsm => inferInstanceAs (Decidable True)
  | .openCompaction => inferInstanceAs (Decidable True)
  | .callCompaction _ => inferInstanceAs (Decidable (_ = _))
  | .writeCompaction => inferInstanceAs (Decidable True)
  | .reopen => inferInstanceAs (Decidable (_ = _))

/-- One writer at most is in a call; the file, with what that call has still to write, is
the text of the lines written and of its line; the Lsm is at the end of the file while it
is in a call, and the compaction thread appends. -/
structure Tidy (s : ManifestWriters) : Prop where
  alone : s.lsm.calls = [] ∨ s.compactionCalls = []
  file : s.file ++ s.calls.flatMap LineCall.left =
    (s.written ++ s.calls.map LineCall.line).flatMap ManifestLine.text
  lsm : s.lsm.calls ≠ [] → s.lsm.handle.AtEnd s.file
  compaction : ∀ w ∈ s.compaction, w.handle.mode = .append

theorem tidy_fresh : fresh.Tidy where
  alone := Or.inl rfl
  file := rfl
  lsm := fun h => absurd rfl h
  compaction := fun _ h => absurd h (Option.not_mem_none _)

/-- A call that begins: nothing is written yet, and its whole line is still to come. -/
theorem Tidy.begins {s s' : ManifestWriters} (h : s.Tidy) {line : ManifestLine}
    (hidle : s.calls = []) (hcalls : s'.calls = [.start line]) (hfile : s'.file = s.file)
    (hwritten : s'.written = s.written) :
    s'.file ++ s'.calls.flatMap LineCall.left =
      (s'.written ++ s'.calls.map LineCall.line).flatMap ManifestLine.text := by
  have hwhole := h.file
  simp only [hidle, List.flatMap_nil, List.map_nil, List.append_nil] at hwhole
  have hleft : (LineCall.start line).left = line.text := LineCall.left_start line
  have hline : (LineCall.start line).line = line := rfl
  simp [hcalls, hfile, hwritten, hwhole, hleft, hline]

theorem calls_start {w : ManifestWriter} (hidle : w.calls = []) (line : ManifestLine) :
    (w.start line).calls = [.start line] := by
  obtain ⟨handle, call⟩ := w
  cases call with
  | none => rfl
  | some call => exact absurd hidle (List.cons_ne_nil _ _)

theorem start_of_calls {w : ManifestWriter} (hcalls : w.calls ≠ []) (line : ManifestLine) :
    w.start line = w := by
  obtain ⟨handle, call⟩ := w
  cases call with
  | none => exact absurd rfl hcalls
  | some call => rfl

@[simp] theorem handle_start (w : ManifestWriter) (line : ManifestLine) :
    (w.start line).handle = w.handle := by
  unfold ManifestWriter.start
  split <;> rfl

theorem Tidy.callLsm {s : ManifestWriters} (h : s.Tidy) {line : ManifestLine}
    (hother : s.compactionCalls = []) (hend : s.lsm.handle.AtEnd s.file) :
    (s.callLsm line).Tidy := by
  by_cases hidle : s.lsm.calls = []
  · have hcalls : (s.callLsm line).calls = [.start line] := by
      show (s.lsm.start line).calls ++ s.compactionCalls = _
      rw [calls_start hidle, hother, List.append_nil]
    have hnone : s.calls = [] := by rw [calls, hidle, hother, List.append_nil]
    refine ⟨Or.inr hother, h.begins hnone hcalls rfl rfl, ?_, h.compaction⟩
    intro _
    show (s.lsm.start line).handle.AtEnd s.file
    rw [handle_start]
    exact hend
  · have hsame : s.callLsm line = s := by rw [ManifestWriters.callLsm, start_of_calls hidle]
    rw [hsame]
    exact h

theorem compactionCalls_of_some {s : ManifestWriters} {w : ManifestWriter}
    (hw : s.compaction = some w) : s.compactionCalls = w.calls := by
  rw [compactionCalls, hw]
  exact List.append_nil _

theorem Tidy.callCompaction {s : ManifestWriters} (h : s.Tidy) {line : ManifestLine}
    (hother : s.lsm.calls = []) : (s.callCompaction line).Tidy := by
  cases hw : s.compaction with
  | none =>
      have hsame : s.callCompaction line = s := by
        rw [ManifestWriters.callCompaction, hw, Option.map_none, ← hw]
      rw [hsame]
      exact h
  | some w =>
      have hopen : (s.callCompaction line).compaction = some (w.start line) := by
        rw [ManifestWriters.callCompaction, hw, Option.map_some]
      by_cases hidle : w.calls = []
      · have hcalls : (s.callCompaction line).calls = [.start line] := by
          rw [calls, compactionCalls_of_some hopen, calls_start hidle]
          exact congrArg (· ++ _) hother
        have hnone : s.calls = [] := by
          rw [calls, compactionCalls_of_some hw, hother, hidle, List.append_nil]
        refine ⟨Or.inl hother, h.begins hnone hcalls rfl rfl, h.lsm, ?_⟩
        intro w' hw'
        rw [hopen] at hw'
        rw [← Option.some.inj hw', handle_start]
        exact h.compaction w hw
      · have hsame : s.callCompaction line = s := by
          rw [ManifestWriters.callCompaction, hw, Option.map_some, start_of_calls hidle, ← hw]
        rw [hsame]
        exact h

/-- A piece of the Lsm's call; outside of a call nothing happens. -/
theorem Tidy.writeLsm {s : ManifestWriters} (h : s.Tidy) : s.writeLsm.Tidy := by
  by_cases hidle : s.lsm.calls = []
  · have hsame : s.writeLsm = s := by
      rw [ManifestWriters.writeLsm,
        ManifestWriter.write_of_call_none (Option.toList_eq_nil_iff.mp hidle)]
      simp
    rw [hsame]
    exact h
  · have hother : s.compactionCalls = [] := h.alone.resolve_left hidle
    have hatEnd := (ManifestWriter.write_atEnd (h.lsm hidle)).1
    refine ⟨Or.inr hother, ?_, fun _ => hatEnd, h.compaction⟩
    have hfile := h.file
    simp only [calls, hother, List.append_nil] at hfile
    show (s.lsm.write s.file).2.1 ++
        ((s.lsm.write s.file).1.calls ++ s.compactionCalls).flatMap LineCall.left =
      (s.written ++ (s.lsm.write s.file).2.2 ++
        ((s.lsm.write s.file).1.calls ++ s.compactionCalls).map LineCall.line).flatMap
          ManifestLine.text
    rw [hother, List.append_nil]
    exact ManifestWriter.file_write (h.lsm hidle) hfile

/-- A piece of the compaction thread's call; its handle always appends. -/
theorem Tidy.writeCompaction {s : ManifestWriters} (h : s.Tidy) : s.writeCompaction.Tidy := by
  cases hw : s.compaction with
  | none =>
      rw [ManifestWriters.writeCompaction, hw]
      exact h
  | some w =>
      have happend : w.handle.mode = .append := h.compaction w hw
      have hend : w.handle.AtEnd s.file := ManifestHandle.atEnd_of_append happend s.file
      by_cases hidle : w.calls = []
      · have hsame : s.writeCompaction = s := by
          rw [ManifestWriters.writeCompaction, hw]
          simp only [ManifestWriter.write_of_call_none (Option.toList_eq_nil_iff.mp hidle),
            List.append_nil, ← hw]
        rw [hsame]
        exact h
      -- a call is under way here, so the Lsm has none
      · have hother : s.lsm.calls = [] := by
          refine h.alone.resolve_right ?_
          rw [compactionCalls_of_some hw]
          exact hidle
        have hnext : s.writeCompaction =
            { s with
              compaction := some (w.write s.file).1
              file := (w.write s.file).2.1
              written := s.written ++ (w.write s.file).2.2 } := by
          rw [ManifestWriters.writeCompaction, hw]
        have hcalls : s.writeCompaction.compactionCalls = (w.write s.file).1.calls :=
          compactionCalls_of_some (by rw [hnext])
        have hlsm : s.writeCompaction.lsm.calls = [] := by
          rw [hnext]
          exact hother
        refine ⟨Or.inl hlsm, ?_, fun hcall => absurd hlsm hcall, ?_⟩
        · have hfile := h.file
          rw [calls, compactionCalls_of_some hw, hother, List.nil_append] at hfile
          rw [calls, hcalls, hlsm, List.nil_append, hnext]
          exact ManifestWriter.file_write hend hfile
        · intro w' hw'
          rw [hnext] at hw'
          rw [← Option.some.inj hw']
          exact ManifestWriter.mode_write_append happend s.file

theorem Tidy.openCompaction {s : ManifestWriters} (h : s.Tidy) : s.openCompaction.Tidy := by
  unfold ManifestWriters.openCompaction
  split
  · next manifest hother _ =>
      have hcalls : s.calls = s.lsm.calls := by rw [calls, hother, List.append_nil]
      refine ⟨Or.inr rfl, ?_, h.lsm, ?_⟩
      · have hfile := h.file
        rw [hcalls] at hfile
        show s.file ++ (s.lsm.calls ++ []).flatMap LineCall.left =
          (s.written ++ (s.lsm.calls ++ []).map LineCall.line).flatMap ManifestLine.text
        rw [List.append_nil]
        exact hfile
      · intro w hw
        rw [← Option.some.inj hw]
        rfl
  · exact h

theorem Tidy.reopen {s : ManifestWriters} (h : s.Tidy) (hidle : s.calls = []) :
    s.reopen.Tidy := by
  unfold ManifestWriters.reopen
  split
  · exact h
  · refine ⟨Or.inl rfl, ?_, fun hcall => absurd rfl hcall,
      fun w hw => absurd hw (Option.not_mem_none _)⟩
    have hfile := h.file
    rw [hidle] at hfile
    exact hfile

theorem Tidy.step {s : ManifestWriters} (h : s.Tidy) {action : WriterStep}
    (hseparate : s.SeparateStep action) : (s.step action).Tidy := by
  cases action with
  | callLsm line => exact h.callLsm hseparate.1 hseparate.2
  | writeLsm => exact h.writeLsm
  | openCompaction => exact h.openCompaction
  | callCompaction line => exact h.callCompaction hseparate
  | writeCompaction => exact h.writeCompaction
  | reopen => exact h.reopen hseparate

end ManifestWriters

/-! ## Calls that nothing comes between -/

theorem length_take_rightpad (file : List Char) (pos : ℕ) :
    ((file.rightpad pos (Char.ofNat 0)).take pos).length = pos := by
  rw [List.length_take, List.length_rightpad]
  omega

/-- Two writes one behind the other are one write. -/
theorem writeAtPos_append (file : List Char) (pos : ℕ) (text text' : List Char) :
    writeAtPos (writeAtPos file pos text) (pos + text.length) text' =
      writeAtPos file pos (text ++ text') := by
  have hlength : (((file.rightpad pos (Char.ofNat 0)).take pos) ++ text).length =
      pos + text.length := by
    rw [List.length_append, length_take_rightpad]
  have hpad : (writeAtPos file pos text).rightpad (pos + text.length) (Char.ofNat 0) =
      writeAtPos file pos text := by
    have hle : pos + text.length ≤ (writeAtPos file pos text).length := by
      rw [writeAtPos, List.length_append, hlength]
      exact Nat.le_add_right _ _
    simp [List.rightpad, Nat.sub_eq_zero_of_le hle]
  have hdrop : (writeAtPos file pos text).drop (pos + text.length + text'.length) =
      file.drop (pos + text.length + text'.length) := by
    rw [writeAtPos, ← hlength, List.drop_length_add_append, List.drop_drop]
  rw [writeAtPos, hpad, hdrop]
  conv_lhs => rw [writeAtPos]
  rw [← hlength, List.take_left, hlength, writeAtPos, List.length_append]
  simp [Nat.add_assoc]

namespace ManifestHandle

theorem writePiece_append (h : ManifestHandle) (file text text' : List Char) :
    (h.writePiece file text).1.writePiece (h.writePiece file text).2 text' =
      h.writePiece file (text ++ text') := by
  obtain ⟨manifest, mode⟩ := h
  cases mode with
  | append => exact congrArg (Prod.mk _) (List.append_assoc file text text')
  | offset pos => simp [writePiece, writeAtPos_append, Nat.add_assoc]

@[simp] theorem manifest_writePiece (h : ManifestHandle) (file piece : List Char) :
    (h.writePiece file piece).1.manifest = h.manifest := by
  unfold writePiece
  split <;> rfl

/-- A whole line in one write. -/
theorem write_eq_writePiece (h : ManifestHandle) (file : List Char) (line : ManifestLine) :
    h.write file line =
      ({ (h.writePiece file line.text).1 with manifest := h.manifest.applyLine line },
        (h.writePiece file line.text).2) := by
  obtain ⟨manifest, mode⟩ := h
  cases mode <;> rfl

end ManifestHandle

namespace ManifestWriter

/-- The next pieces, with nothing in between. -/
def writes (w : ManifestWriter) (file : List Char) :
    ℕ → ManifestWriter × List Char × List ManifestLine
  | 0 => (w, file, [])
  | n + 1 =>
      let (w', file', done) := w.write file
      let (w'', file'', done') := w'.writes file' n
      (w'', file'', done ++ done')

/-- As many pieces as a call has left are one write of all of them. -/
theorem writes_call (h : ManifestHandle) (file : List Char) (call : LineCall) :
    ({ handle := h, call := some call } : ManifestWriter).writes file (call.rest.length + 1) =
      (.idle { (h.writePiece file call.left).1 with manifest := h.manifest.applyLine call.line },
        (h.writePiece file call.left).2, [call.line]) := by
  obtain ⟨line, piece, rest⟩ := call
  induction rest generalizing h file piece with
  | nil => simp [writes, write, LineCall.next, LineCall.done, LineCall.left, idle]
  | cons piece' rest ih =>
      have hrest := ih (h.writePiece file piece).1 (h.writePiece file piece).2 piece'
      have hleft : (LineCall.mk line piece (piece' :: rest)).left =
          piece ++ (LineCall.mk line piece' rest).left := rfl
      rw [ManifestHandle.writePiece_append, ← hleft, ManifestHandle.manifest_writePiece] at hrest
      exact hrest

/-- A call from its beginning to its end is the call of `ManifestHandle.write`. -/
theorem writes_start (h : ManifestHandle) (file : List Char) (line : ManifestLine) :
    ((idle h).start line).writes file (line.pieces.2.length + 1) =
      (.idle (h.write file line).1, (h.write file line).2, [line]) := by
  rw [ManifestHandle.write_eq_writePiece, ← LineCall.left_start]
  exact writes_call h file (.start line)

end ManifestWriter

namespace ManifestWriters

/-- The state between two calls, as `ManifestLog` has it. -/
def log (s : ManifestWriters) : ManifestLog where
  file := s.file
  lsm := s.lsm.handle
  compaction := s.compaction.map ManifestWriter.handle
  written := s.written

/-- The steps of a whole call. -/
def whole : LogStep → List WriterStep
  | .lsm line => .callLsm line :: List.replicate (line.pieces.2.length + 1) .writeLsm
  | .openCompaction => [.openCompaction]
  | .compaction line =>
      .callCompaction line :: List.replicate (line.pieces.2.length + 1) .writeCompaction
  | .reopen => [.reopen]

theorem run_writeLsm (s : ManifestWriters) (n : ℕ) :
    run step s (List.replicate n .writeLsm) =
      { s with
        lsm := (s.lsm.writes s.file n).1
        file := (s.lsm.writes s.file n).2.1
        written := s.written ++ (s.lsm.writes s.file n).2.2 } := by
  induction n generalizing s with
  | zero => simp [ManifestWriter.writes]
  | succ n ih =>
      rw [List.replicate_succ, run_cons, ih]
      simp [step, writeLsm, ManifestWriter.writes]

theorem run_writeCompaction {s : ManifestWriters} {w : ManifestWriter}
    (hw : s.compaction = some w) (n : ℕ) :
    run step s (List.replicate n .writeCompaction) =
      { s with
        compaction := some (w.writes s.file n).1
        file := (w.writes s.file n).2.1
        written := s.written ++ (w.writes s.file n).2.2 } := by
  induction n generalizing s w with
  | zero => simp [ManifestWriter.writes, ← hw]
  | succ n ih =>
      have hopen : (s.step .writeCompaction).compaction = some (w.write s.file).1 := by
        simp [step, writeCompaction, hw]
      rw [List.replicate_succ, run_cons, ih hopen]
      simp [step, writeCompaction, hw, ManifestWriter.writes]

theorem eq_idle {w : ManifestWriter} (hidle : w.calls = []) : w = .idle w.handle := by
  obtain ⟨handle, call⟩ := w
  rw [show call = none from Option.toList_eq_nil_iff.mp hidle]
  rfl

theorem log_writeLsm {s : ManifestWriters} (hidle : s.calls = []) (line : ManifestLine) :
    (run step s (whole (.lsm line))).log = s.log.writeLsm line ∧
      (run step s (whole (.lsm line))).calls = [] := by
  obtain ⟨hlsm, hother⟩ := List.append_eq_nil_iff.mp hidle
  have hwrites := ManifestWriter.writes_start s.lsm.handle s.file line
  rw [← eq_idle hlsm] at hwrites
  rw [whole, run_cons, run_writeLsm]
  simp only [step, ManifestWriters.callLsm, hwrites]
  exact ⟨rfl, hother⟩

theorem log_writeCompaction {s : ManifestWriters} (hidle : s.calls = []) (line : ManifestLine) :
    (run step s (whole (.compaction line))).log = s.log.writeCompaction line ∧
      (run step s (whole (.compaction line))).calls = [] := by
  obtain ⟨hlsm, hother⟩ := List.append_eq_nil_iff.mp hidle
  cases hw : s.compaction with
  | none =>
      have hstill : ∀ n, run step s (List.replicate n .writeCompaction) = s := by
        intro n
        induction n with
        | zero => rfl
        | succ n ih =>
            rw [List.replicate_succ, run_cons]
            simp only [step, ManifestWriters.writeCompaction, hw]
            exact ih
      have hcall : s.step (.callCompaction line) = s := by
        simp only [step, ManifestWriters.callCompaction, hw, Option.map_none]
        rw [← hw]
      rw [whole, run_cons, hcall, hstill, ManifestLog.writeCompaction]
      simp only [log, hw, Option.map_none]
      exact ⟨trivial, hidle⟩
  | some w =>
      rw [compactionCalls_of_some hw] at hother
      have hwrites := ManifestWriter.writes_start w.handle s.file line
      rw [← eq_idle hother] at hwrites
      have hopen : (s.step (.callCompaction line)).compaction = some (w.start line) := by
        simp only [step, ManifestWriters.callCompaction, hw, Option.map_some]
      rw [whole, run_cons, run_writeCompaction hopen]
      simp only [step, ManifestWriters.callCompaction, hwrites]
      refine ⟨?_, List.append_eq_nil_iff.mpr ⟨hlsm, rfl⟩⟩
      simp only [log, ManifestLog.writeCompaction, hw, Option.map_some]
      rfl

theorem log_whole {s : ManifestWriters} (hidle : s.calls = []) (action : LogStep) :
    (run step s (whole action)).log = s.log.step action ∧
      (run step s (whole action)).calls = [] := by
  cases action with
  | lsm line => exact log_writeLsm hidle line
  | openCompaction =>
      obtain ⟨hlsm, hother⟩ := List.append_eq_nil_iff.mp hidle
      have hfile : s.log.file = s.file := rfl
      simp only [whole, run_cons, run_nil, step, ManifestLog.step, ManifestWriters.openCompaction,
        ManifestLog.openCompaction, hother, hfile]
      cases Manifest.openFile s.file with
      | none => exact ⟨rfl, hidle⟩
      | some manifest => exact ⟨rfl, List.append_eq_nil_iff.mpr ⟨hlsm, rfl⟩⟩
  | compaction line => exact log_writeCompaction hidle line
  | reopen =>
      have hfile : s.log.file = s.file := rfl
      simp only [whole, run_cons, run_nil, step, ManifestLog.step, ManifestWriters.reopen,
        ManifestLog.reopen, hfile]
      cases Manifest.openFile s.file with
      | none => exact ⟨rfl, hidle⟩
      | some manifest => exact ⟨rfl, rfl⟩

/-- A run of whole calls is the run of `ManifestLog`. -/
theorem log_run {s : ManifestWriters} (hidle : s.calls = []) (steps : List LogStep) :
    (run step s (steps.flatMap whole)).log = run ManifestLog.step s.log steps := by
  induction steps generalizing s with
  | nil => rfl
  | cons action rest ih =>
      obtain ⟨hlog, hcalls⟩ := log_whole hidle action
      rw [List.flatMap_cons, run_append, ih hcalls, hlog, run_cons]

/-! ## What is read back -/

/-- In every run, over any number of sessions, in which no two calls overlap and the handle
of the Lsm is at the end of the file whenever a call of it begins: when no call is under
way, reading the file back gives what all calls have written, in their order. -/
theorem openFile_run (steps : List WriterStep) (hseparate : Along step SeparateStep fresh steps)
    (hidle : (run step fresh steps).calls = []) :
    Manifest.openFile (run step fresh steps).file =
      some (Manifest.load (run step fresh steps).written) := by
  have hrun : (run step fresh steps).Tidy :=
    hseparate.invariant Tidy (fun _ _ h hstep => h.step hstep) tidy_fresh
  have hfile := hrun.file
  simp only [hidle, List.flatMap_nil, List.map_nil, List.append_nil] at hfile
  rw [Manifest.openFile, hfile, Manifest.readLines_text, Option.map_some]

/-- A compaction at the end of the first session, and both writers in the second one; in the
end the compaction thread opens the file, and cannot read it, in the middle of a line. -/
def bothWriters : List WriterStep :=
  [LogStep.lsm (.wal 1), .lsm (.sst 0 1), .openCompaction, .compaction (.del 0 1), .reopen,
    .lsm (.wal 2), .openCompaction, .lsm (.sst 0 3), .compaction (.sst 1 2)].flatMap whole ++
    [WriterStep.callLsm (.wal 3), .writeLsm, .openCompaction, .writeLsm, .writeLsm]

theorem openFile_run_bothWriters :
    Manifest.openFile (run step fresh bothWriters).file =
      some (Manifest.load (run step fresh bothWriters).written) :=
  openFile_run _ (by decide +kernel) (by decide +kernel)

/-- The first session: four tables, their compaction, and the next rotation, every call for
itself. -/
def firstSession : List WriterStep :=
  [LogStep.lsm (.wal 1), .lsm (.sst 0 1), .lsm (.wal 2), .lsm (.sst 0 2), .lsm (.wal 3),
    .lsm (.sst 0 3), .lsm (.wal 4), .lsm (.sst 0 4), .openCompaction, .compaction (.del 0 1),
    .compaction (.del 0 2), .compaction (.del 0 3), .compaction (.del 0 4), .compaction (.sst 1 5),
    .lsm (.wal 5)].flatMap whole

/-- The first `DEL` line is gone. -/
theorem openFile_run_ne :
    (run step fresh firstSession).calls = [] ∧
      (Manifest.openFile (run step fresh firstSession).file).map
        (fun manifest => manifest.levels 0) = some [1] ∧
      (Manifest.load (run step fresh firstSession).written).levels 0 = [] := by
  decide +kernel

/-- Two handles that append, in the second session: a call of the compaction thread before
the last piece of one of the Lsm. -/
def overlap : List WriterStep :=
  [LogStep.lsm (.wal 1), .reopen, .openCompaction].flatMap whole ++
    WriterStep.callLsm (.sst 0 5) :: List.replicate 4 .writeLsm ++ whole (.compaction (.del 0 1)) ++
      [WriterStep.writeLsm]

/-- The line is `SST:0:5DEL:0:1`, and `load` panics. -/
theorem openFile_run_overlap :
    (run step fresh overlap).calls = [] ∧
      Manifest.openFile (run step fresh overlap).file = none := by
  decide +kernel

end ManifestWriters
end Crabstash

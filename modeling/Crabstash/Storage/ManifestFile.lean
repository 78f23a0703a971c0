import Crabstash.Foundations.Text
import Crabstash.Storage.Manifest

/-!
# The manifest as a file

The text of a line, reading a whole file back, and the two ways in which a handle of
the file writes: one that `Manifest::open` has opened always writes at the end of the
file, one that `Manifest::create` has opened writes where it wrote last, over whatever
somebody else has put there meanwhile.

A call writes its line at once here.  What is read back is what was written, line by line,
if the file consists of such lines (`readLines_text`).
-/

namespace Crabstash

/-! ## Text -/

namespace ManifestLine

/-- The fields between the colons. -/
def fields : ManifestLine → List (List Char)
  | sst level id => ["SST".toList, Text.decimal level, Text.decimal id]
  | del level id => ["DEL".toList, Text.decimal level, Text.decimal id]
  | wal id => ["WAL".toList, Text.decimal id]

/-- What `writeln!` writes. -/
def text (line : ManifestLine) : List Char := [':'].intercalate line.fields ++ ['\n']

end ManifestLine

namespace Manifest

/-- `parts[1].parse()` and the like; none stands for the panic. -/
def field (parts : List (List Char)) (i : ℕ) : Option ℕ := parts[i]? >>= Text.parseDecimal

/-- A round of the loop of `load`: a line that changes something, or one that is skipped;
none stands for a panic. -/
def parseLine (line : List Char) : Option (Option ManifestLine) :=
  let parts := line.splitOn ':'
  if parts.head? = some "SST".toList then do
    let level ← field parts 1
    let id ← field parts 2
    return some (.sst level id)
  else if parts.head? = some "DEL".toList then do
    let level ← field parts 1
    let id ← field parts 2
    return some (.del level id)
  else if parts.head? = some "WAL".toList then do
    let id ← field parts 1
    return some (.wal id)
  else return none

/-- `BufRead::lines` also takes a carriage return from the end of a line. -/
def stripReturn (line : List Char) : List Char :=
  if line.getLast? = some '\r' then line.dropLast else line

/-- The lines of a file that change something. -/
def readLines (file : List Char) : Option (List ManifestLine) :=
  ((Text.lines file).mapM fun line => parseLine (stripReturn line)).map fun ls =>
    ls.filterMap id

/-- What `open` reads. -/
def openFile (file : List Char) : Option Manifest := (readLines file).map load

/-! ## Reading back -/

theorem notMem_fields {c : Char} (hdigit : c.isDigit = false) (hsst : c ∉ "SST".toList)
    (hdel : c ∉ "DEL".toList) (hwal : c ∉ "WAL".toList) (line : ManifestLine) :
    ∀ field ∈ line.fields, c ∉ field := by
  have hdecimal := Text.notMem_decimal hdigit
  intro field hfield
  cases line with
  | sst level id =>
      simp only [ManifestLine.fields, List.mem_cons, List.not_mem_nil, or_false] at hfield
      rcases hfield with rfl | rfl | rfl
      · exact hsst
      · exact hdecimal level
      · exact hdecimal id
  | del level id =>
      simp only [ManifestLine.fields, List.mem_cons, List.not_mem_nil, or_false] at hfield
      rcases hfield with rfl | rfl | rfl
      · exact hdel
      · exact hdecimal level
      · exact hdecimal id
  | wal id =>
      simp only [ManifestLine.fields, List.mem_cons, List.not_mem_nil, or_false] at hfield
      rcases hfield with rfl | rfl
      · exact hwal
      · exact hdecimal id

theorem notMem_intercalate {c : Char} {ls : List (List Char)} (hcolon : c ≠ ':')
    (hls : ∀ l ∈ ls, c ∉ l) : c ∉ [':'].intercalate ls := by
  induction ls with
  | nil => simp
  | cons l rest ih =>
      rw [List.forall_mem_cons] at hls
      cases rest with
      | nil => simpa using hls.1
      | cons l' rest =>
          have hrest := ih hls.2
          rw [List.intercalate_cons_cons]
          simp [hls.1, hcolon, hrest]

theorem stripReturn_eq_self {line : List Char} (hreturn : '\r' ∉ line) : stripReturn line = line := by
  unfold stripReturn
  rw [if_neg]
  intro hlast
  exact hreturn (List.mem_of_getLast? hlast)

theorem parseLine_text (line : ManifestLine) :
    parseLine ([':'].intercalate line.fields) = some (some line) := by
  have hcolon := notMem_fields (c := ':') (by decide) (by decide) (by decide) (by decide) line
  have hne : line.fields ≠ [] := by cases line <;> exact List.cons_ne_nil _ _
  have hfield : ∀ n : ℕ, some (Text.decimal n) >>= Text.parseDecimal = some n := fun n =>
    Text.parseDecimal_decimal n
  have hdelSst : "DEL".toList ≠ "SST".toList := by decide
  have hwalSst : "WAL".toList ≠ "SST".toList := by decide
  have hwalDel : "WAL".toList ≠ "DEL".toList := by decide
  unfold parseLine
  rw [List.splitOn_intercalate ':' hcolon hne]
  cases line with
  | sst level id =>
      have hhead : (ManifestLine.sst level id).fields.head? = some "SST".toList := rfl
      have hlevel : field (ManifestLine.sst level id).fields 1 = some level := hfield level
      have hid : field (ManifestLine.sst level id).fields 2 = some id := hfield id
      simp only [hhead, if_true, hlevel, hid]
      rfl
  | del level id =>
      have hhead : (ManifestLine.del level id).fields.head? = some "DEL".toList := rfl
      have hlevel : field (ManifestLine.del level id).fields 1 = some level := hfield level
      have hid : field (ManifestLine.del level id).fields 2 = some id := hfield id
      simp only [hhead, Option.some.injEq, hdelSst, if_true, if_false, hlevel, hid]
      rfl
  | wal id =>
      have hhead : (ManifestLine.wal id).fields.head? = some "WAL".toList := rfl
      have hid : field (ManifestLine.wal id).fields 1 = some id := hfield id
      simp only [hhead, Option.some.injEq, hwalSst, hwalDel, if_true, if_false, hid]
      rfl

/-- A file that consists of lines is read as these lines. -/
theorem readLines_text (ls : List ManifestLine) :
    readLines (ls.flatMap ManifestLine.text) = some ls := by
  have htext : ls.flatMap ManifestLine.text =
      (ls.map fun line => [':'].intercalate line.fields).flatMap fun l => l ++ ['\n'] := by
    rw [List.flatMap_map]
    rfl
  have hnewline : ∀ l ∈ ls.map fun line => [':'].intercalate line.fields, '\n' ∉ l := by
    intro l hl
    obtain ⟨line, _, rfl⟩ := List.mem_map.mp hl
    exact notMem_intercalate (by decide)
      (notMem_fields (by decide) (by decide) (by decide) (by decide) line)
  have hparse : ∀ line : ManifestLine,
      parseLine (stripReturn ([':'].intercalate line.fields)) = some (some line) := by
    intro line
    rw [stripReturn_eq_self, parseLine_text]
    exact notMem_intercalate (by decide)
      (notMem_fields (by decide) (by decide) (by decide) (by decide) line)
  have hall : ∀ ls : List ManifestLine,
      ((ls.map fun line => [':'].intercalate line.fields).mapM fun line =>
        parseLine (stripReturn line)) = some (ls.map some) := by
    intro ls
    induction ls with
    | nil => rfl
    | cons line rest ih => simp [hparse, ih]
  rw [readLines, htext, Text.lines_flatMap hnewline, hall]
  simp

end Manifest

/-! ## Writing -/

/-- Where a handle writes: at the end of the file, or where it has written last. -/
inductive OpenMode where
  | append
  | offset (pos : ℕ)
  deriving DecidableEq, Repr

/-- Bytes written at a position; a gap behind the end of the file is filled with zeros. -/
def writeAtPos (file : List Char) (pos : ℕ) (text : List Char) : List Char :=
  (file.rightpad pos (Char.ofNat 0)).take pos ++ text ++ file.drop (pos + text.length)

theorem writeAtPos_length (file text : List Char) :
    writeAtPos file file.length text = file ++ text := by
  simp [writeAtPos, List.rightpad]

/-- A `Manifest` with what its file handle needs. -/
structure ManifestHandle where
  manifest : Manifest
  mode : OpenMode

namespace ManifestHandle

/-- `Manifest::create`; the file is truncated. -/
def create : ManifestHandle := { manifest := Manifest.create, mode := .offset 0 }

/-- `writeln!(self.file, ..)?; self.file.sync_all()?` and what follows in memory: `add_sst`,
`remove_sst` or `add_wal`. -/
def write (h : ManifestHandle) (file : List Char) (line : ManifestLine) :
    ManifestHandle × List Char :=
  match h.mode with
  | .append => ({ h with manifest := h.manifest.applyLine line }, file ++ line.text)
  | .offset pos =>
      ({ manifest := h.manifest.applyLine line, mode := .offset (pos + line.text.length) },
        writeAtPos file pos line.text)

/-- The next line goes to the end of the file. -/
def AtEnd (h : ManifestHandle) (file : List Char) : Prop :=
  match h.mode with
  | .append => True
  | .offset pos => pos = file.length

instance (h : ManifestHandle) (file : List Char) : Decidable (h.AtEnd file) :=
  match h with
  | ⟨_, .append⟩ => inferInstanceAs (Decidable True)
  | ⟨_, .offset _⟩ => inferInstanceAs (Decidable (_ = _))

theorem atEnd_of_append {h : ManifestHandle} (happend : h.mode = .append) (file : List Char) :
    h.AtEnd file := by
  unfold AtEnd
  rw [happend]
  trivial

theorem write_atEnd {h : ManifestHandle} {file : List Char} (hend : h.AtEnd file)
    (line : ManifestLine) : (h.write file line).2 = file ++ line.text := by
  obtain ⟨manifest, mode⟩ := h
  cases mode with
  | append => rfl
  | offset pos =>
      obtain rfl : pos = file.length := hend
      exact writeAtPos_length file line.text

@[simp] theorem manifest_write (h : ManifestHandle) (file : List Char) (line : ManifestLine) :
    (h.write file line).1.manifest = h.manifest.applyLine line := by
  unfold write
  split <;> rfl

end ManifestHandle
end Crabstash

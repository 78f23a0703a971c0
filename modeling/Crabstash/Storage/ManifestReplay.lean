import Crabstash.Foundations.HashMap
import Crabstash.Foundations.Run
import Crabstash.Storage.ManifestFile
import Mathlib.Algebra.Order.Group.Nat

/-!
# One handle of the manifest at a time

`Manifest` again, with the map of levels that it keeps in memory and its numbers of 64 bits,
and `load` line by line with the numbers as `parse` takes them.  A handle is made by
`Manifest::create`, calls go through it, and now and then it is closed and the file opened
again.

The calls write their line and then change the map; `load` parses the line and changes the
map in the same way.  The numbers that were allocated are in memory only, so that the two can
differ in the counters, in one direction.  The invariant is that the file consists of the
lines of the calls and that the map is what these lines make of an empty one (`Replayed`).
-/

namespace Crabstash

open Run

/-- A level with the numbers of its tables. -/
structure LevelMeta where
  level : ℕ
  sstIds : List ℕ
  deriving DecidableEq, Repr

/-- `Manifest`, without its file. -/
structure LiveManifest where
  levels : HashMap ℕ LevelMeta
  nextSstId : ℕ
  nextWalId : ℕ
  deriving DecidableEq

/-- The numbers of a line, below the last one of its type. -/
def ManifestLine.Fits : ManifestLine → Prop
  | sst level id => level < 2 ^ 32 ∧ id < 2 ^ 64 - 1
  | del level id => level < 2 ^ 32 ∧ id < 2 ^ 64 - 1
  | wal id => id < 2 ^ 64 - 1

instance : ∀ line : ManifestLine, Decidable line.Fits
  | .sst _ _ => inferInstanceAs (Decidable (_ ∧ _))
  | .del _ _ => inferInstanceAs (Decidable (_ ∧ _))
  | .wal _ => inferInstanceAs (Decidable (_ < _))

namespace LiveManifest

/-- `Manifest::create`. -/
def create : LiveManifest := { levels := ∅, nextSstId := 1, nextWalId := 1 }

/-- `id + 1`, which wraps around in a release build. -/
def succ (id : ℕ) : ℕ := (id + 1) % 2 ^ 64

/-- The arm of `SST`, and the second half of `add_sst`. -/
def pushSst (m : LiveManifest) (level id : ℕ) : LiveManifest :=
  let entry := (m.levels.lookup level).getD { level, sstIds := [] }
  { m with
    levels := m.levels.insert level { entry with sstIds := entry.sstIds ++ [id] }
    nextSstId := max m.nextSstId (succ id) }

/-- The arm of `DEL`, and the second half of `remove_sst`. -/
def retainSst (m : LiveManifest) (level id : ℕ) : LiveManifest :=
  match m.levels.lookup level with
  | none => m
  | some entry =>
      { m with
        levels := m.levels.insert level { entry with sstIds := entry.sstIds.filter (· ≠ id) } }

/-- The arm of `WAL`, and the second half of `add_wal`. -/
def seeWal (m : LiveManifest) (id : ℕ) : LiveManifest :=
  { m with nextWalId := max m.nextWalId (succ id) }

/-- What the reading loop of `open` does with a line. -/
def applyLine (m : LiveManifest) : ManifestLine → LiveManifest
  | .sst level id => m.pushSst level id
  | .del level id => m.retainSst level id
  | .wal id => m.seeWal id

/-- `allocate_sst_id`. -/
def allocateSstId (m : LiveManifest) : ℕ × LiveManifest :=
  (m.nextSstId, { m with nextSstId := succ m.nextSstId })

/-- `allocate_wal_id`. -/
def allocateWalId (m : LiveManifest) : ℕ × LiveManifest :=
  (m.nextWalId, { m with nextWalId := succ m.nextWalId })

/-- `parse` of a `u32` or a `u64` refuses a number that is too large. -/
def Parsed : ManifestLine → Bool
  | .sst level id => level < 2 ^ 32 && id < 2 ^ 64
  | .del level id => level < 2 ^ 32 && id < 2 ^ 64
  | .wal id => id < 2 ^ 64

/-- A round of the loop of `load`; none stands for a panic. -/
def loadLine (m : LiveManifest) (line : List Char) : Option LiveManifest :=
  match Manifest.parseLine (Manifest.stripReturn line) with
  | none => none
  | some none => some m
  | some (some line) => if Parsed line then some (m.applyLine line) else none

/-- `Manifest::open`. -/
def openFile (file : List Char) : Option LiveManifest := (Text.lines file).foldlM loadLine create

/-- What lines make of an empty manifest. -/
def replay (lines : List ManifestLine) : LiveManifest := lines.foldl applyLine create

/-! ## Reading back -/

theorem succ_eq {id : ℕ} (hid : id < 2 ^ 64 - 1) : succ id = id + 1 :=
  Nat.mod_eq_of_lt (by omega)

theorem parsed_of_fits {line : ManifestLine} (hfits : line.Fits) : Parsed line = true := by
  have hlast : 2 ^ 64 - 1 ≤ 2 ^ 64 := Nat.sub_le _ _
  cases line with
  | sst level id =>
      exact Bool.and_eq_true_iff.mpr
        ⟨decide_eq_true hfits.1, decide_eq_true (lt_of_lt_of_le hfits.2 hlast)⟩
  | del level id =>
      exact Bool.and_eq_true_iff.mpr
        ⟨decide_eq_true hfits.1, decide_eq_true (lt_of_lt_of_le hfits.2 hlast)⟩
  | wal id => exact decide_eq_true (lt_of_lt_of_le hfits hlast)

theorem loadLine_text_of_parsed {line : ManifestLine} (hparsed : Parsed line = true)
    (m : LiveManifest) : m.loadLine ([':'].intercalate line.fields) = some (m.applyLine line) := by
  have hreturn : '\r' ∉ [':'].intercalate line.fields :=
    Manifest.notMem_intercalate (by decide)
      (Manifest.notMem_fields (by decide) (by decide) (by decide) (by decide) line)
  unfold loadLine
  rw [Manifest.stripReturn_eq_self hreturn, Manifest.parseLine_text]
  simp [hparsed]

theorem flatMap_text (ls : List ManifestLine) :
    ls.flatMap ManifestLine.text =
      (ls.map fun line => [':'].intercalate line.fields).flatMap fun l => l ++ ['\n'] := by
  rw [List.flatMap_map]
  rfl

theorem newline_notMem {ls : List ManifestLine} :
    ∀ l ∈ ls.map fun line => [':'].intercalate line.fields, '\n' ∉ l := by
  intro l hl
  obtain ⟨line, -, rfl⟩ := List.mem_map.mp hl
  exact Manifest.notMem_intercalate (by decide)
    (Manifest.notMem_fields (by decide) (by decide) (by decide) (by decide) line)

theorem foldlM_loadLine {ls : List ManifestLine} (hparsed : ∀ line ∈ ls, Parsed line = true)
    (m : LiveManifest) :
    (ls.map fun line => [':'].intercalate line.fields).foldlM loadLine m
      = some (ls.foldl applyLine m) := by
  induction ls generalizing m with
  | nil => rfl
  | cons line rest ih =>
      rw [List.forall_mem_cons] at hparsed
      rw [List.map_cons, List.foldlM_cons, loadLine_text_of_parsed hparsed.1]
      exact ih hparsed.2 (m.applyLine line)

/-- A file that consists of lines is opened as what these lines make. -/
theorem openFile_text_of_parsed {ls : List ManifestLine}
    (hparsed : ∀ line ∈ ls, Parsed line = true) :
    openFile (ls.flatMap ManifestLine.text) = some (replay ls) := by
  rw [openFile, flatMap_text, Text.lines_flatMap newline_notMem, foldlM_loadLine hparsed]
  rfl

theorem openFile_text {ls : List ManifestLine} (hfits : ∀ line ∈ ls, line.Fits) :
    openFile (ls.flatMap ManifestLine.text) = some (replay ls) :=
  openFile_text_of_parsed fun line hline => parsed_of_fits (hfits line hline)

theorem replay_append (lines : List ManifestLine) (line : ManifestLine) :
    replay (lines ++ [line]) = (replay lines).applyLine line := by
  simp [replay]

/-! ### The counters -/

section

variable (m : LiveManifest)

@[simp] theorem nextSstId_retainSst (level id : ℕ) :
    (m.retainSst level id).nextSstId = m.nextSstId := by
  unfold retainSst
  split <;> rfl

@[simp] theorem nextWalId_retainSst (level id : ℕ) :
    (m.retainSst level id).nextWalId = m.nextWalId := by
  unfold retainSst
  split <;> rfl

theorem nextSstId_le_applyLine (line : ManifestLine) :
    m.nextSstId ≤ (m.applyLine line).nextSstId := by
  cases line with
  | sst level id => exact le_max_left _ _
  | del level id => simp [applyLine]
  | wal id => simp [applyLine, seeWal]

theorem nextWalId_le_applyLine (line : ManifestLine) :
    m.nextWalId ≤ (m.applyLine line).nextWalId := by
  cases line with
  | sst level id => simp [applyLine, pushSst]
  | del level id => simp [applyLine]
  | wal id => exact le_max_left _ _

end

/-- The map after a line depends on the map before. -/
theorem levels_applyLine {m m' : LiveManifest} (hlevels : m.levels = m'.levels)
    (line : ManifestLine) : (m.applyLine line).levels = (m'.applyLine line).levels := by
  cases line with
  | sst level id => simp [applyLine, pushSst, hlevels]
  | del level id =>
      show (m.retainSst level id).levels = (m'.retainSst level id).levels
      unfold retainSst
      rw [hlevels]
      cases m'.levels.lookup level with
      | none => exact hlevels
      | some entry => rfl
  | wal id => exact hlevels

theorem nextSstId_applyLine {m m' : LiveManifest} (hle : m.nextSstId ≤ m'.nextSstId)
    (line : ManifestLine) : (m.applyLine line).nextSstId ≤ (m'.applyLine line).nextSstId := by
  cases line with
  | sst level id => exact max_le_max_right _ hle
  | del level id => simpa [applyLine] using hle
  | wal id => exact hle

theorem nextWalId_applyLine {m m' : LiveManifest} (hle : m.nextWalId ≤ m'.nextWalId)
    (line : ManifestLine) : (m.applyLine line).nextWalId ≤ (m'.applyLine line).nextWalId := by
  cases line with
  | sst level id => exact hle
  | del level id => simpa [applyLine] using hle
  | wal id => exact max_le_max_right _ hle

/-- The numbers of tables that are in the lines have been used. -/
theorem lt_nextSstId {lines : List ManifestLine} (hfits : ∀ line ∈ lines, line.Fits) {level id : ℕ}
    (hmem : .sst level id ∈ lines) : id < (replay lines).nextSstId := by
  induction lines using List.reverseRecOn with
  | nil => contradiction
  | append_singleton lines line ih =>
      rw [replay_append]
      rcases List.mem_append.mp hmem with hold | hnew
      · have hid := ih (fun line hline => hfits line (List.mem_append_left _ hline)) hold
        exact lt_of_lt_of_le hid (nextSstId_le_applyLine _ line)
      · obtain rfl := List.mem_singleton.mp hnew
        have hlast := hfits (.sst level id) hmem
        have hsucc := succ_eq hlast.2
        calc
          id < succ id := by omega
          _ ≤ max (replay lines).nextSstId (succ id) := le_max_right _ _

theorem lt_nextWalId {lines : List ManifestLine} (hfits : ∀ line ∈ lines, line.Fits) {id : ℕ}
    (hmem : .wal id ∈ lines) : id < (replay lines).nextWalId := by
  induction lines using List.reverseRecOn with
  | nil => contradiction
  | append_singleton lines line ih =>
      rw [replay_append]
      rcases List.mem_append.mp hmem with hold | hnew
      · have hid := ih (fun line hline => hfits line (List.mem_append_left _ hline)) hold
        exact lt_of_lt_of_le hid (nextWalId_le_applyLine _ line)
      · obtain rfl := List.mem_singleton.mp hnew
        have hsucc := succ_eq (hfits (.wal id) hmem)
        calc
          id < succ id := by omega
          _ ≤ max (replay lines).nextWalId (succ id) := le_max_right _ _

/-! ### The manifest without bounds -/

/-- The tables of a level; a level without an entry has none. -/
def sstIds (m : LiveManifest) (level : ℕ) : List ℕ :=
  ((m.levels.lookup level).map LevelMeta.sstIds).getD []

theorem sstIds_pushSst (m : LiveManifest) (level id level' : ℕ) :
    (m.pushSst level id).sstIds level' =
      if level' = level then m.sstIds level ++ [id] else m.sstIds level' := by
  unfold sstIds pushSst
  split
  · next heq =>
      subst heq
      cases hlookup : m.levels.lookup level' with
      | none => simp
      | some entry => simp
  · next hne => simp [hne]

theorem sstIds_retainSst (m : LiveManifest) (level id level' : ℕ) :
    (m.retainSst level id).sstIds level' =
      if level' = level then (m.sstIds level).filter (· ≠ id) else m.sstIds level' := by
  unfold retainSst
  by_cases heq : level' = level
  · subst heq
    cases hlookup : m.levels.lookup level' with
    | none => simp [sstIds, hlookup]
    | some entry => simp [sstIds, hlookup]
  · cases hlookup : m.levels.lookup level with
    | none => simp [heq]
    | some entry => simp [heq, sstIds]

/-- Levels as functions, and numbers without bounds. -/
def toManifest (m : LiveManifest) : Manifest :=
  { levels := m.sstIds, nextSstId := m.nextSstId, nextWalId := m.nextWalId }

theorem toManifest_applyLine {line : ManifestLine} (hfits : line.Fits) (m : LiveManifest) :
    (m.applyLine line).toManifest = m.toManifest.applyLine line := by
  cases line with
  | sst level id =>
      have hsucc := succ_eq hfits.2
      simp only [toManifest, Manifest.applyLine, Manifest.mk.injEq]
      refine ⟨funext fun level' => ?_, ?_, rfl⟩
      · exact (m.sstIds_pushSst level id level').trans (Function.update_apply ..).symm
      · rw [← hsucc]
        rfl
  | del level id =>
      simp only [toManifest, Manifest.applyLine, Manifest.mk.injEq]
      refine ⟨funext fun level' => ?_, m.nextSstId_retainSst level id, m.nextWalId_retainSst level id⟩
      exact (m.sstIds_retainSst level id level').trans (Function.update_apply ..).symm
  | wal id =>
      have hsucc := succ_eq (show id < 2 ^ 64 - 1 from hfits)
      simp only [toManifest, Manifest.applyLine, Manifest.mk.injEq]
      refine ⟨rfl, rfl, ?_⟩
      rw [← hsucc]
      rfl

theorem toManifest_replay {lines : List ManifestLine} (hfits : ∀ line ∈ lines, line.Fits) :
    (replay lines).toManifest = Manifest.load lines := by
  induction lines using List.reverseRecOn with
  | nil => rfl
  | append_singleton lines line ih =>
      have hlines : ∀ line ∈ lines, line.Fits :=
        fun line hline => hfits line (List.mem_append_left _ hline)
      rw [replay_append, Manifest.load_append, toManifest_applyLine (hfits line (by simp)),
        ih hlines]

/-- With its levels as functions the file is what the rest of this development takes it for. -/
theorem toManifest_openFile {ls : List ManifestLine} (hfits : ∀ line ∈ ls, line.Fits) :
    (openFile (ls.flatMap ManifestLine.text)).map toManifest =
      Manifest.openFile (ls.flatMap ManifestLine.text) := by
  rw [openFile_text hfits, Manifest.openFile, Manifest.readLines_text, Option.map_some,
    Option.map_some, toManifest_replay hfits]

end LiveManifest

/-! ## Handles -/

/-- The file and the handle that is open. -/
structure ManifestSession where
  file : List Char
  mode : OpenMode
  manifest : LiveManifest
  deriving DecidableEq

/-- The calls of a manifest, and opening its file again. -/
inductive ManifestCall where
  | addSst (level id : ℕ)
  | removeSst (level id : ℕ)
  | addWal (id : ℕ)
  | allocateSstId
  | allocateWalId
  | reopen
  deriving DecidableEq, Repr

/-- The line that a call writes. -/
def ManifestCall.line : ManifestCall → Option ManifestLine
  | addSst level id => some (.sst level id)
  | removeSst level id => some (.del level id)
  | addWal id => some (.wal id)
  | allocateSstId => none
  | allocateWalId => none
  | reopen => none

namespace ManifestSession

/-- `Manifest::create`. -/
def create : ManifestSession := { file := [], mode := .offset 0, manifest := LiveManifest.create }

/-- `writeln!(self.file, ..)` and `sync_all`. -/
def writeln (s : ManifestSession) (line : ManifestLine) : ManifestSession :=
  match s.mode with
  | .append => { s with file := s.file ++ line.text }
  | .offset pos =>
      { s with
        file := writeAtPos s.file pos line.text
        mode := .offset (pos + line.text.length) }

/-- `add_sst`: the line, then the map. -/
def addSst (s : ManifestSession) (level id : ℕ) : ManifestSession :=
  let s := s.writeln (.sst level id)
  { s with manifest := s.manifest.pushSst level id }

/-- `remove_sst`. -/
def removeSst (s : ManifestSession) (level id : ℕ) : ManifestSession :=
  let s := s.writeln (.del level id)
  { s with manifest := s.manifest.retainSst level id }

/-- `add_wal`. -/
def addWal (s : ManifestSession) (id : ℕ) : ManifestSession :=
  let s := s.writeln (.wal id)
  { s with manifest := s.manifest.seeWal id }

/-- The handle is closed and `Manifest::open` makes another; it may panic. -/
def reopen (s : ManifestSession) : ManifestSession :=
  match LiveManifest.openFile s.file with
  | none => s
  | some manifest => { s with mode := .append, manifest }

/-- A call on the manifest and its file. -/
def step (s : ManifestSession) : ManifestCall → ManifestSession
  | .addSst level id => s.addSst level id
  | .removeSst level id => s.removeSst level id
  | .addWal id => s.addWal id
  | .allocateSstId => { s with manifest := s.manifest.allocateSstId.2 }
  | .allocateWalId => { s with manifest := s.manifest.allocateWalId.2 }
  | .reopen => s.reopen

/-- The numbers are within their types, and the last number of 64 bits is not used. -/
def FitsStep (s : ManifestSession) : ManifestCall → Prop
  | .addSst level id => ManifestLine.Fits (.sst level id)
  | .removeSst level id => ManifestLine.Fits (.del level id)
  | .addWal id => ManifestLine.Fits (.wal id)
  | .allocateSstId => s.manifest.nextSstId < 2 ^ 64 - 1
  | .allocateWalId => s.manifest.nextWalId < 2 ^ 64 - 1
  | .reopen => True

instance (s : ManifestSession) : ∀ call, Decidable (s.FitsStep call)
  | .addSst level id => inferInstanceAs (Decidable (ManifestLine.Fits (.sst level id)))
  | .removeSst level id => inferInstanceAs (Decidable (ManifestLine.Fits (.del level id)))
  | .addWal id => inferInstanceAs (Decidable (ManifestLine.Fits (.wal id)))
  | .allocateSstId => inferInstanceAs (Decidable (_ < _))
  | .allocateWalId => inferInstanceAs (Decidable (_ < _))
  | .reopen => inferInstanceAs (Decidable True)

/-! ## The invariant -/

/-- The file consists of these lines, and memory has what they make of an empty manifest, but
for numbers that were allocated. -/
structure Replayed (s : ManifestSession) (lines : List ManifestLine) : Prop where
  file : s.file = lines.flatMap ManifestLine.text
  atEnd : s.mode = .append ∨ s.mode = .offset s.file.length
  fits : ∀ line ∈ lines, line.Fits
  levels : s.manifest.levels = (LiveManifest.replay lines).levels
  nextSstId : (LiveManifest.replay lines).nextSstId ≤ s.manifest.nextSstId
  nextWalId : (LiveManifest.replay lines).nextWalId ≤ s.manifest.nextWalId

theorem replayed_create : create.Replayed [] where
  file := rfl
  atEnd := Or.inr rfl
  fits := fun _ hline => absurd hline List.not_mem_nil
  levels := rfl
  nextSstId := le_refl _
  nextWalId := le_refl _

section

variable {s : ManifestSession} {lines : List ManifestLine}

@[simp] theorem manifest_writeln (line : ManifestLine) : (s.writeln line).manifest = s.manifest := by
  unfold writeln
  split <;> rfl

/-- A line goes to the end of the file. -/
theorem Replayed.file_writeln (h : s.Replayed lines) (line : ManifestLine) :
    (s.writeln line).file = s.file ++ line.text ∧
      ((s.writeln line).mode = .append ∨
        (s.writeln line).mode = .offset (s.writeln line).file.length) := by
  unfold writeln
  rcases h.atEnd with hmode | hmode
  · simp [hmode]
  · simp [hmode, writeAtPos_length]

/-- A call that writes its line and changes memory as `load` would. -/
theorem Replayed.write (h : s.Replayed lines) {line : ManifestLine} (hfits : line.Fits) :
    ({ s.writeln line with manifest := s.manifest.applyLine line } :
      ManifestSession).Replayed (lines ++ [line]) := by
  obtain ⟨hfile, hmode⟩ := h.file_writeln line
  refine ⟨?_, hmode, ?_, ?_, ?_, ?_⟩
  · rw [List.flatMap_append, List.flatMap_singleton, ← h.file]
    exact hfile
  · intro line' hline'
    rcases List.mem_append.mp hline' with hold | hnew
    · exact h.fits line' hold
    · rw [List.mem_singleton.mp hnew]
      exact hfits
  all_goals rw [LiveManifest.replay_append]
  · exact LiveManifest.levels_applyLine h.levels line
  · exact LiveManifest.nextSstId_applyLine h.nextSstId line
  · exact LiveManifest.nextWalId_applyLine h.nextWalId line

/-- Opening the file gives what its lines make, and nothing else changes. -/
theorem Replayed.reopen (h : s.Replayed lines) : s.reopen.Replayed lines := by
  have hopen : LiveManifest.openFile s.file = some (LiveManifest.replay lines) := by
    rw [h.file]
    exact LiveManifest.openFile_text h.fits
  rw [ManifestSession.reopen, hopen]
  exact ⟨h.file, Or.inl rfl, h.fits, rfl, le_refl _, le_refl _⟩

/-- A number is allocated in memory. -/
theorem Replayed.allocate (h : s.Replayed lines) {manifest : LiveManifest}
    (hlevels : manifest.levels = s.manifest.levels)
    (hsst : s.manifest.nextSstId ≤ manifest.nextSstId)
    (hwal : s.manifest.nextWalId ≤ manifest.nextWalId) :
    ({ s with manifest } : ManifestSession).Replayed lines :=
  ⟨h.file, h.atEnd, h.fits, hlevels.trans h.levels, h.nextSstId.trans hsst, h.nextWalId.trans hwal⟩

theorem Replayed.step (h : s.Replayed lines) {call : ManifestCall} (hfits : s.FitsStep call) :
    (s.step call).Replayed (lines ++ call.line.toList) := by
  cases call with
  | addSst level id =>
      show ({ s.writeln (.sst level id) with
        manifest := (s.writeln (.sst level id)).manifest.pushSst level id } :
          ManifestSession).Replayed (lines ++ [.sst level id])
      rw [manifest_writeln]
      exact h.write hfits
  | removeSst level id =>
      show ({ s.writeln (.del level id) with
        manifest := (s.writeln (.del level id)).manifest.retainSst level id } :
          ManifestSession).Replayed (lines ++ [.del level id])
      rw [manifest_writeln]
      exact h.write hfits
  | addWal id =>
      show ({ s.writeln (.wal id) with
        manifest := (s.writeln (.wal id)).manifest.seeWal id } :
          ManifestSession).Replayed (lines ++ [.wal id])
      rw [manifest_writeln]
      exact h.write hfits
  | allocateSstId =>
      -- an allocation writes no line, and `open` takes the counters from the lines
      rw [show lines ++ ManifestCall.allocateSstId.line.toList = lines from List.append_nil _]
      have hsucc := LiveManifest.succ_eq (show s.manifest.nextSstId < 2 ^ 64 - 1 from hfits)
      refine h.allocate rfl ?_ (le_refl _)
      show s.manifest.nextSstId ≤ LiveManifest.succ s.manifest.nextSstId
      omega
  | allocateWalId =>
      rw [show lines ++ ManifestCall.allocateWalId.line.toList = lines from List.append_nil _]
      have hsucc := LiveManifest.succ_eq (show s.manifest.nextWalId < 2 ^ 64 - 1 from hfits)
      refine h.allocate rfl (le_refl _) ?_
      show s.manifest.nextWalId ≤ LiveManifest.succ s.manifest.nextWalId
      omega
  | reopen =>
      rw [show lines ++ ManifestCall.reopen.line.toList = lines from List.append_nil _]
      exact h.reopen

end

/-- The file of a run consists of the lines of its calls. -/
theorem replayed_of_along {s : ManifestSession} {lines : List ManifestLine} (h : s.Replayed lines)
    {calls : List ManifestCall} (hcalls : Along step FitsStep s calls) :
    (run step s calls).Replayed
      (lines ++ calls.filterMap ManifestCall.line) := by
  induction calls generalizing s lines with
  | nil => simpa using h
  | cons call rest ih =>
      have hrest := ih (h.step hcalls.1) hcalls.2
      cases hline : call.line with
      | none => simpa [hline] using hrest
      | some line => simpa [hline] using hrest

/-- After any calls through one handle at a time, opening the file gives the levels that are in
memory, with counters above every number that was recorded and not above those in memory. -/
theorem replayed_run (calls : List ManifestCall) (hcalls : Along step FitsStep create calls) :
    ∃ m, LiveManifest.openFile (run step create calls).file = some m ∧
      m.levels = (run step create calls).manifest.levels ∧
      (∀ level id, .addSst level id ∈ calls → id < m.nextSstId) ∧
      (∀ id, .addWal id ∈ calls → id < m.nextWalId) ∧
      m.nextSstId ≤ (run step create calls).manifest.nextSstId ∧
      m.nextWalId ≤ (run step create calls).manifest.nextWalId := by
  have h := replayed_of_along replayed_create hcalls
  rw [List.nil_append] at h
  refine ⟨LiveManifest.replay (calls.filterMap ManifestCall.line), ?_, h.levels.symm, ?_, ?_,
    h.nextSstId, h.nextWalId⟩
  · rw [h.file]
    exact LiveManifest.openFile_text h.fits
  · intro level id hmem
    exact LiveManifest.lt_nextSstId h.fits (List.mem_filterMap.mpr ⟨_, hmem, rfl⟩)
  · intro id hmem
    exact LiveManifest.lt_nextWalId h.fits (List.mem_filterMap.mpr ⟨_, hmem, rfl⟩)

/-- Two sessions; the second one takes a table out of one level, and one that is not there out
of another. -/
def twoSessions : List ManifestCall :=
  [.allocateWalId, .addWal 1, .allocateSstId, .addSst 0 1, .addSst 0 2, .reopen, .allocateSstId,
    .removeSst 0 1, .removeSst 3 7, .addSst 1 3, .allocateSstId]

theorem replayed_run_twoSessions :
    ∃ m, LiveManifest.openFile (run step create twoSessions).file = some m ∧
      m.levels = (run step create twoSessions).manifest.levels ∧
      (∀ level id, .addSst level id ∈ twoSessions → id < m.nextSstId) ∧
      (∀ id, .addWal id ∈ twoSessions → id < m.nextWalId) ∧
      m.nextSstId ≤ (run step create twoSessions).manifest.nextSstId ∧
      m.nextWalId ≤ (run step create twoSessions).manifest.nextWalId :=
  replayed_run twoSessions (by decide +kernel)

end ManifestSession
end Crabstash

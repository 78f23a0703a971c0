import Crabstash.Storage.ManifestReplay

/-!
# A manifest cut short

A crash in the middle of a write leaves a prefix of the file: some whole lines, and a
fragment of the next one without its line end.  `load` takes the fragment for a line.  It
panics on "SST" and on "SST:0:", takes "SST:1:2" of "SST:1:23" for another table, and
ignores "S".  And the handle that is opened then writes at the end of the file, so that the
next line is glued to the fragment.

With no fragment the file consists of lines, and all is well.  With any other, the line
"SST:0:7" behind it is lost or makes the next open panic: glued to a part of a tag it gives
a longer word, which is no tag, and glued to a number it puts letters into it.
-/

namespace Crabstash

open Run

/-! ## A line behind a fragment -/

namespace Manifest

/-- What is written of a line before its end. -/
def glued (fragment : List Char) (line : ManifestLine) : List Char :=
  fragment ++ [':'].intercalate line.fields

/-- A line with another word than the three tags is skipped. -/
theorem parseLine_of_head {line word : List Char} (hhead : (line.splitOn ':').head? = some word)
    (hlonger : 3 < word.length) : parseLine line = some none := by
  have hne : ∀ tag : List Char, tag.length = 3 → word ≠ tag := by
    rintro tag hlength rfl
    omega
  unfold parseLine
  simp only [hhead, Option.some.injEq]
  rw [if_neg (hne _ rfl), if_neg (hne _ rfl), if_neg (hne _ rfl)]
  rfl

/-- Every tag wants a first number. -/
theorem parseLine_of_first {line : List Char} (hfirst : field (line.splitOn ':') 1 = none) :
    parseLine line = some none ∨ parseLine line = none := by
  unfold parseLine
  simp only [hfirst]
  split
  · exact Or.inr rfl
  · split
    · exact Or.inr rfl
    · split
      · exact Or.inr rfl
      · exact Or.inl rfl

/-- The tags of tables want a second one. -/
theorem parseLine_of_second {line : List Char} (htag : (line.splitOn ':').head? ≠ some "WAL".toList)
    (hsecond : field (line.splitOn ':') 2 = none) :
    parseLine line = some none ∨ parseLine line = none := by
  unfold parseLine
  simp only [hsecond, if_neg htag]
  split
  · refine Or.inr ?_
    cases field _ 1 <;> rfl
  · split
    · refine Or.inr ?_
      cases field _ 1 <;> rfl
    · exact Or.inl rfl

/-- The tag of the new line is glued to the part of the word in which the fragment ends. -/
theorem splitOn_glued {line : ManifestLine} {before rest : List (List Char)} {word part : List Char}
    (hline : line.fields = before ++ word :: rest) (hpart : part <+: word) (level id : ℕ) :
    (glued ([':'].intercalate (before ++ [part])) (.sst level id)).splitOn ':' =
      before ++ (part ++ "SST".toList) :: [Text.decimal level, Text.decimal id] := by
  have hcolon := notMem_fields (c := ':') (by decide) (by decide) (by decide) (by decide)
  have hold := hcolon line
  have hnew := hcolon (.sst level id)
  rw [hline] at hold
  simp only [ManifestLine.fields, List.forall_mem_cons] at hnew
  rw [glued, ManifestLine.fields, Text.intercalate_append]
  refine List.splitOn_intercalate ':' ?_ (by simp)
  intro l hl
  simp only [List.mem_append, List.mem_cons, List.not_mem_nil, or_false] at hl
  rcases hl with hl | rfl | rfl | rfl
  · exact hold l (List.mem_append_left _ hl)
  · intro hmem
    rcases List.mem_append.mp hmem with hmem | hmem
    · exact hold word (by simp) (hpart.subset hmem)
    · exact hnew.1 hmem
  · exact hnew.2.1
  · exact hnew.2.2.1

/-- A new table behind a part of a line is no line any more, or one that cannot be read. -/
theorem parseLine_glued {line : ManifestLine} {fragment : List Char} (hne : fragment ≠ [])
    (hfragment : fragment <+: [':'].intercalate line.fields) (level id : ℕ) :
    parseLine (glued fragment (.sst level id)) = some none ∨
      parseLine (glued fragment (.sst level id)) = none := by
  have hfields : line.fields ≠ [] := by cases line <;> exact List.cons_ne_nil _ _
  obtain ⟨before, word, rest, part, hline, hpart, rfl⟩ :=
    Text.prefix_intercalate hfields hfragment
  have hparts := splitOn_glued hline hpart level id
  have hletters : Text.parseDecimal (part ++ "SST".toList) = none :=
    Text.parseDecimal_eq_none (List.mem_append_right part (by decide : 'S' ∈ "SST".toList))
      (by decide) (by decide)
  rcases before with _ | ⟨tag, _ | ⟨number, _ | ⟨third, more⟩⟩⟩
  · -- the fragment is a part of the tag
    have hpos : 0 < part.length := List.length_pos_of_ne_nil (by simpa using hne)
    have hlonger : 3 < (part ++ "SST".toList).length := by
      have hword : "SST".toList.length = 3 := rfl
      rw [List.length_append, hword]
      omega
    exact Or.inl (parseLine_of_head (by rw [hparts]; rfl) hlonger)
  · -- it ends in the first number
    apply parseLine_of_first
    rw [hparts]
    exact hletters
  · -- it ends in the second number, which the log of a table has
    have htag : tag ≠ "WAL".toList := by
      cases line with
      | sst level' id' =>
          obtain rfl : "SST".toList = tag := (List.cons.inj hline).1
          decide
      | del level' id' =>
          obtain rfl : "DEL".toList = tag := (List.cons.inj hline).1
          decide
      | wal id' =>
          have hlength := congrArg List.length hline
          simp [ManifestLine.fields] at hlength
    apply parseLine_of_second
    · rw [hparts]
      exact fun heq => htag (Option.some.inj heq)
    · rw [hparts]
      exact hletters
  · -- no line has more fields
    have hlength := congrArg List.length hline
    cases line <;> simp [ManifestLine.fields] at hlength

end Manifest

/-! ## A prefix of the file -/

/-- The lines that are whole in the first `n` characters. -/
def completeLines : ℕ → List ManifestLine → List ManifestLine
  | _, [] => []
  | n, line :: rest =>
      if line.text.length ≤ n then line :: completeLines (n - line.text.length) rest else []

/-- What is there of the next line. -/
def fragment : ℕ → List ManifestLine → List Char
  | _, [] => []
  | n, line :: rest =>
      if line.text.length ≤ n then fragment (n - line.text.length) rest else line.text.take n

theorem take_text (n : ℕ) (lines : List ManifestLine) :
    (lines.flatMap ManifestLine.text).take n =
      (completeLines n lines).flatMap ManifestLine.text ++ fragment n lines := by
  induction lines generalizing n with
  | nil => simp [completeLines, fragment]
  | cons line rest ih =>
      rw [completeLines, fragment, List.flatMap_cons]
      by_cases hwhole : line.text.length ≤ n
      · rw [if_pos hwhole, if_pos hwhole, List.take_append, List.take_of_length_le hwhole, ih,
          List.flatMap_cons, List.append_assoc]
      · rw [if_neg hwhole, if_neg hwhole, List.take_append_of_le_length (by omega)]
        rfl

theorem completeLines_subset (n : ℕ) (lines : List ManifestLine) :
    completeLines n lines ⊆ lines := by
  induction lines generalizing n with
  | nil => exact List.Subset.refl _
  | cons line rest ih =>
      rw [completeLines]
      split
      · exact List.cons_subset_cons line (ih _)
      · exact List.nil_subset _

/-- A fragment has not come to the end of its line. -/
theorem fragment_prefix (n : ℕ) (lines : List ManifestLine) (hne : fragment n lines ≠ []) :
    ∃ line : ManifestLine, fragment n lines <+: [':'].intercalate line.fields := by
  induction lines generalizing n with
  | nil => contradiction
  | cons line rest ih =>
      rw [fragment] at hne ⊢
      by_cases hwhole : line.text.length ≤ n
      · rw [if_pos hwhole] at hne ⊢
        exact ih _ hne
      · rw [if_neg hwhole]
        refine ⟨line, ?_⟩
        have hlength : line.text.length = ([':'].intercalate line.fields).length + 1 := by
          rw [ManifestLine.text, List.length_append, List.length_singleton]
        rw [ManifestLine.text, List.take_append_of_le_length (by omega)]
        exact List.take_prefix _ _

namespace LiveManifest

/-- The same tables in the same levels, and the same counters. -/
structure SameState (m m' : LiveManifest) : Prop where
  levels : ∀ level, m.levels.lookup level = m'.levels.lookup level
  nextSstId : m.nextSstId = m'.nextSstId
  nextWalId : m.nextWalId = m'.nextWalId

theorem SameState.refl (m : LiveManifest) : m.SameState m := ⟨fun _ => rfl, rfl, rfl⟩

/-- One table more is another state. -/
theorem not_sameState_pushSst (m : LiveManifest) (level id : ℕ) :
    ¬m.SameState (m.pushSst level id) := by
  intro h
  have htables : m.sstIds level = (m.pushSst level id).sstIds level := by
    rw [sstIds, sstIds, h.levels level]
  rw [sstIds_pushSst, if_pos rfl] at htables
  have hlength := congrArg List.length htables
  simp at hlength

end LiveManifest

namespace ManifestSession

/-- The handle that `Manifest::open` makes. -/
def opened (file : List Char) (manifest : LiveManifest) : ManifestSession :=
  { file, mode := .append, manifest }

/-- The file is opened without a panic as what the lines make, and what is then recorded is
read back by the next `open`. -/
def ReadsBack (file : List Char) (lines : List ManifestLine) : Prop :=
  ∃ m, LiveManifest.openFile file = some m ∧ m.SameState (LiveManifest.replay lines) ∧
    ∀ calls : List ManifestCall,
      (∀ call ∈ calls, ∀ line ∈ call.line, LiveManifest.Parsed line = true) →
      ∃ m', LiveManifest.openFile (run step (opened file m) calls).file = some m' ∧
        m'.SameState (LiveManifest.replay (lines ++ calls.filterMap ManifestCall.line))

/-- The next line goes to the end of the file. -/
def AtEnd (s : ManifestSession) : Prop := s.mode = .append ∨ s.mode = .offset s.file.length

theorem file_writeln {s : ManifestSession} (hend : s.AtEnd) (line : ManifestLine) :
    (s.writeln line).file = s.file ++ line.text ∧ (s.writeln line).AtEnd := by
  unfold AtEnd writeln
  rcases hend with hmode | hmode
  · simp [hmode]
  · simp [hmode, writeAtPos_length]

theorem file_step {s : ManifestSession} (hend : s.AtEnd) (call : ManifestCall) :
    (s.step call).file = s.file ++ call.line.toList.flatMap ManifestLine.text ∧
      (s.step call).AtEnd := by
  have hline : ∀ line, (s.writeln line).file
      = s.file ++ [line].flatMap ManifestLine.text ∧ (s.writeln line).AtEnd := by
    intro line
    rw [List.flatMap_singleton]
    exact file_writeln hend line
  cases call with
  | addSst level id => exact hline (.sst level id)
  | removeSst level id => exact hline (.del level id)
  | addWal id => exact hline (.wal id)
  | allocateSstId => exact ⟨(List.append_nil _).symm, hend⟩
  | allocateWalId => exact ⟨(List.append_nil _).symm, hend⟩
  | reopen =>
      show s.reopen.file = s.file ++ [] ∧ s.reopen.AtEnd
      unfold reopen
      rw [List.append_nil]
      cases LiveManifest.openFile s.file with
      | none => exact ⟨rfl, hend⟩
      | some manifest => exact ⟨rfl, Or.inl rfl⟩

/-- The lines of the calls come behind what is in the file. -/
theorem file_run {s : ManifestSession} (hend : s.AtEnd) (calls : List ManifestCall) :
    (run step s calls).file =
      s.file ++ (calls.filterMap ManifestCall.line).flatMap ManifestLine.text := by
  induction calls generalizing s with
  | nil => simp
  | cons call rest ih =>
      obtain ⟨hfile, hend'⟩ := file_step hend call
      rw [run_cons, ih hend', hfile]
      cases hline : call.line with
      | none => simp [hline]
      | some line => simp [hline]

theorem parsed_of_mem_filterMap {calls : List ManifestCall}
    (hparsed : ∀ call ∈ calls, ∀ line ∈ call.line, LiveManifest.Parsed line = true) :
    ∀ line ∈ calls.filterMap ManifestCall.line, LiveManifest.Parsed line = true := by
  intro line hline
  obtain ⟨call, hcall, hsome⟩ := List.mem_filterMap.mp hline
  exact hparsed call hcall line hsome

/-- Lines without a fragment. -/
theorem readsBack_text {lines : List ManifestLine}
    (hparsed : ∀ line ∈ lines, LiveManifest.Parsed line = true) :
    ReadsBack (lines.flatMap ManifestLine.text) lines := by
  refine ⟨_, LiveManifest.openFile_text_of_parsed hparsed, .refl _, ?_⟩
  intro calls hcalls
  refine ⟨_, ?_, .refl _⟩
  rw [file_run (Or.inl rfl)]
  have hboth : ∀ line ∈ lines ++ calls.filterMap ManifestCall.line,
      LiveManifest.Parsed line = true :=
    List.forall_mem_append.mpr ⟨hparsed, parsed_of_mem_filterMap hcalls⟩
  have hopen := LiveManifest.openFile_text_of_parsed hboth
  rwa [List.flatMap_append] at hopen

/-- Behind a fragment a new table is lost, or it makes the next `open` panic. -/
theorem openFile_glued {lines : List ManifestLine}
    (hparsed : ∀ line ∈ lines, LiveManifest.Parsed line = true) {part : List Char}
    (hne : part ≠ []) {line : ManifestLine} (hpart : part <+: [':'].intercalate line.fields)
    (level id : ℕ) :
    LiveManifest.openFile (lines.flatMap ManifestLine.text ++ part ++
        (ManifestLine.sst level id).text) = some (LiveManifest.replay lines) ∨
      LiveManifest.openFile (lines.flatMap ManifestLine.text ++ part ++
        (ManifestLine.sst level id).text) = none := by
  have hfree : ∀ {c : Char}, c.isDigit = false → c ∉ "SST".toList → c ∉ "DEL".toList →
      c ∉ "WAL".toList → c ≠ ':' → c ∉ Manifest.glued part (.sst level id) := by
    intro c hdigit hsst hdel hwal hcolon hmem
    have hfields := Manifest.notMem_fields hdigit hsst hdel hwal
    rcases List.mem_append.mp hmem with hmem | hmem
    · exact Manifest.notMem_intercalate hcolon (hfields line) (hpart.subset hmem)
    · exact Manifest.notMem_intercalate hcolon (hfields (.sst level id)) hmem
  -- fragment and line are one line of the new file
  have htext : lines.flatMap ManifestLine.text ++ part ++ (ManifestLine.sst level id).text =
      ((lines.map fun line => [':'].intercalate line.fields) ++
        [Manifest.glued part (.sst level id)]).flatMap fun l => l ++ ['\n'] := by
    rw [LiveManifest.flatMap_text, List.flatMap_append, List.flatMap_singleton, Manifest.glued,
      ManifestLine.text]
    simp only [List.append_assoc]
  have hnewline : ∀ l ∈ (lines.map fun line => [':'].intercalate line.fields) ++
      [Manifest.glued part (.sst level id)], '\n' ∉ l := by
    intro l hl
    rcases List.mem_append.mp hl with hl | hl
    · exact LiveManifest.newline_notMem l hl
    · rw [List.mem_singleton.mp hl]
      exact hfree (by decide) (by decide) (by decide) (by decide) (by decide)
  have hreturn : Manifest.stripReturn (Manifest.glued part (.sst level id))
      = Manifest.glued part (.sst level id) :=
    Manifest.stripReturn_eq_self
      (hfree (by decide) (by decide) (by decide) (by decide) (by decide))
  have hopen : LiveManifest.openFile (lines.flatMap ManifestLine.text ++ part ++
      (ManifestLine.sst level id).text) =
        (LiveManifest.replay lines).loadLine (Manifest.glued part (.sst level id)) := by
    rw [LiveManifest.openFile, htext, Text.lines_flatMap hnewline, List.foldlM_append,
      LiveManifest.foldlM_loadLine hparsed]
    show ((LiveManifest.replay lines).loadLine _).bind some = _
    rw [Option.bind_fun_some]
  rw [hopen, LiveManifest.loadLine, hreturn]
  rcases Manifest.parseLine_glued hne hpart level id with hskipped | hpanic
  · rw [hskipped]
    exact Or.inl rfl
  · rw [hpanic]
    exact Or.inr rfl

/-- A prefix of a manifest is opened as its whole lines, and goes on to be read back, exactly
if the cut is at the end of a line. -/
theorem readsBack_take_iff (calls : List ManifestCall)
    (hparsed : ∀ call ∈ calls, ∀ line ∈ call.line, LiveManifest.Parsed line = true) (n : ℕ) :
    ReadsBack ((run step create calls).file.take n)
        (completeLines n (calls.filterMap ManifestCall.line)) ↔
      fragment n (calls.filterMap ManifestCall.line) = [] := by
  have hlines := parsed_of_mem_filterMap hparsed
  generalize hwritten : calls.filterMap ManifestCall.line = lines at hlines
  have hfile : (run step create calls).file = lines.flatMap ManifestLine.text := by
    rw [file_run (Or.inr rfl), hwritten]
    rfl
  have hcomplete : ∀ line ∈ completeLines n lines, LiveManifest.Parsed line = true :=
    fun line hline => hlines line (completeLines_subset n lines hline)
  -- what is left is whole lines and a fragment
  rw [hfile, take_text]
  constructor
  · rintro ⟨m, hopen, -, hcalls⟩
    by_contra hne
    obtain ⟨line, hpart⟩ := fragment_prefix n lines hne
    -- a table is added, and its line is glued to the fragment
    obtain ⟨m', hopen', hsame⟩ := hcalls [.addSst 0 7] (by decide)
    rw [file_run (Or.inl rfl)] at hopen'
    have hglued := openFile_glued hcomplete hne hpart 0 7
    have hopen' : LiveManifest.openFile ((completeLines n lines).flatMap ManifestLine.text ++
        fragment n lines ++ (ManifestLine.sst 0 7).text) = some m' := by
      simpa [opened, ManifestCall.line] using hopen'
    rw [hopen'] at hglued
    rcases hglued with hlost | hpanic
    · obtain rfl := Option.some.inj hlost
      have hsame : (LiveManifest.replay (completeLines n lines)).SameState
          (LiveManifest.replay (completeLines n lines ++ [.sst 0 7])) := hsame
      rw [LiveManifest.replay_append] at hsame
      exact LiveManifest.not_sameState_pushSst _ 0 7 hsame
    · contradiction
  · intro hnil
    rw [hnil, List.append_nil]
    exact readsBack_text hcomplete

/-- A cut behind the first of two lines. -/
theorem readsBack_take_whole :
    ReadsBack ((run step create [.addSst 0 1, .addWal 2]).file.take 8)
      (completeLines 8 ([.addSst 0 1, .addWal 2].filterMap ManifestCall.line)) :=
  (readsBack_take_iff [.addSst 0 1, .addWal 2] (by decide) 8).mpr (by decide)

/-- A cut behind the tag of a line: `open` panics. -/
theorem openFile_take_tag :
    ¬∀ (calls : List ManifestCall) (n : ℕ),
      (∀ call ∈ calls, ∀ line ∈ call.line, LiveManifest.Parsed line = true) →
      ReadsBack ((run step create calls).file.take n)
        (completeLines n (calls.filterMap ManifestCall.line)) := by
  intro h
  obtain ⟨m, hopen, -⟩ := h [.addSst 0 1] 3 (by decide)
  have hpanic : LiveManifest.openFile ((run step create [.addSst 0 1]).file.take 3) = none := by
    decide
  rw [hpanic] at hopen
  contradiction

end ManifestSession
end Crabstash

import Crabstash.Storage.WalManager

/-!
# Which segment holds what

Every call that has appended has its records in one segment, and the segments are filled
one after the other (`Partition`): a segment has one name, in one of the two directories,
and its file with what is still buffered holds the records of the calls that came to it.
Only the newest segment is open, and it is never moved away.

So to take the segments in the order of their numbers is to take the calls in the order in
which they have appended (`Partition.recoverPitr`).
-/

namespace Crabstash

/-- A call that has appended, and where. -/
structure Landed where
  segment : ℕ
  callId : ℕ
  records : List WalRecord

namespace Landed

/-- The records that have landed in a segment. -/
def recordsIn (landed : List Landed) (segment : ℕ) : List WalRecord :=
  (landed.filter fun e => e.segment = segment).flatMap records

theorem recordsIn_append (landed landed' : List Landed) (segment : ℕ) :
    recordsIn (landed ++ landed') segment =
      recordsIn landed segment ++ recordsIn landed' segment := by
  rw [recordsIn, List.filter_append, List.flatMap_append]
  rfl

theorem recordsIn_singleton (e : Landed) (segment : ℕ) :
    recordsIn [e] segment = if e.segment = segment then e.records else [] := by
  unfold recordsIn
  by_cases heq : e.segment = segment <;> simp [heq]

end Landed

namespace SegmentFiles

/-- The file of a segment, wherever its name is. -/
def find (d : SegmentFiles) (segmentId : ℕ) : Option ℕ :=
  (d.archive.lookup segmentId).or (d.wal.lookup segmentId)

section

variable {d : SegmentFiles} {segmentId file : ℕ}

@[simp] theorem find_write (d : SegmentFiles) (file : ℕ) (bytes : Bytes) :
    (d.write file bytes).find = d.find := rfl

@[simp] theorem wal_write (d : SegmentFiles) (file : ℕ) (bytes : Bytes) :
    (d.write file bytes).wal = d.wal := rfl

@[simp] theorem archive_write (d : SegmentFiles) (file : ℕ) (bytes : Bytes) :
    (d.write file bytes).archive = d.archive := rfl

@[simp] theorem nextFile_write (d : SegmentFiles) (file : ℕ) (bytes : Bytes) :
    (d.write file bytes).nextFile = d.nextFile := rfl

theorem read_write (d : SegmentFiles) (file file' : ℕ) (bytes : Bytes) :
    (d.write file bytes).read file' =
      if file' = file then d.read file ++ bytes else d.read file' := by
  unfold write read
  split
  · next heq => rw [heq, AList.lookup_insert, Option.getD_some]
  · next hne => rw [AList.lookup_insert_ne hne]

theorem read_newFile (d : SegmentFiles) (segmentId file : ℕ) :
    (d.newFile segmentId).read file = if file = d.nextFile then [] else d.read file := by
  unfold newFile read
  split
  · next heq => rw [heq, AList.lookup_insert, Option.getD_some]
  · next hne => rw [AList.lookup_insert_ne hne]

theorem find_of_wal (h : d.wal.lookup segmentId = some file)
    (harchive : d.archive.lookup segmentId = none) : d.find segmentId = some file := by
  rw [find, harchive, h, Option.none_or]

theorem find_of_archive (h : d.archive.lookup segmentId = some file) :
    d.find segmentId = some file := by
  rw [find, h, Option.some_or]

theorem of_find (h : d.find segmentId = some file) :
    d.archive.lookup segmentId = some file ∨ d.wal.lookup segmentId = some file := by
  unfold find at h
  cases harchive : d.archive.lookup segmentId with
  | some file' =>
      rw [harchive, Option.some_or] at h
      exact Or.inl h
  | none =>
      rw [harchive, Option.none_or] at h
      exact Or.inr h

end

end SegmentFiles

/-- What the writes of a call put into the buffer. -/
theorem SegmentWal.foldl_writeRecord {codec : WalCodec} (wal : SegmentWal) (options : WalOptions)
    {records : List WalRecord} (hrecords : ∀ record ∈ records, record.WellFormed) :
    ∃ bytes, WalCodec.Frames codec bytes records ∧
      (records.foldl (writeRecord codec options) wal).file = wal.file ∧
      (records.foldl (writeRecord codec options) wal).buffer = wal.buffer ++ bytes := by
  induction records generalizing wal with
  | nil => exact ⟨[], .nil, rfl, (List.append_nil _).symm⟩
  | cons record records ih =>
      rw [List.forall_mem_cons] at hrecords
      obtain ⟨bytes, hframes, hfile, hbuffer⟩ :=
        ih (wal.writeRecord codec options record) hrecords.2
      refine ⟨_, hframes.cons options.enableCompression hrecords.1, hfile, ?_⟩
      rw [List.foldl_cons, hbuffer]
      exact List.append_assoc _ _ _

/-- The segments hold what the calls have appended, and the last one is open. -/
structure Partition (codec : WalCodec) (landed : List Landed) (d : SegmentFiles) (current : ℕ)
    (wal : SegmentWal) : Prop where
  isOpen : d.wal.lookup current = some wal.file
  bound : ∀ segmentId file, d.find segmentId = some file → segmentId ≤ current
  apart : ∀ segmentId file, d.wal.lookup segmentId = some file →
    d.archive.lookup segmentId = none
  injective : ∀ segmentId segmentId' file, d.find segmentId = some file →
    d.find segmentId' = some file → segmentId = segmentId'
  fresh : ∀ segmentId file, d.find segmentId = some file → file < d.nextFile
  holds : ∀ segmentId file, d.find segmentId = some file →
    WalCodec.Frames codec (d.read file ++ if segmentId = current then wal.buffer else [])
      (Landed.recordsIn landed segmentId)
  sorted : landed.Pairwise fun e e' => e.segment ≤ e'.segment
  placed : ∀ e ∈ landed, ∃ file, d.find e.segment = some file

namespace Partition

variable {codec : WalCodec} {landed : List Landed} {d : SegmentFiles} {current : ℕ}
  {wal : SegmentWal}

theorem find_current (h : Partition codec landed d current wal) :
    d.find current = some wal.file :=
  SegmentFiles.find_of_wal h.isOpen (h.apart current wal.file h.isOpen)

theorem placed_le (h : Partition codec landed d current wal) {e : Landed} (he : e ∈ landed) :
    e.segment ≤ current := by
  obtain ⟨file, hfind⟩ := h.placed e he
  exact h.bound e.segment file hfind

/-! ## Appending -/

/-- The first part of the buffer comes into the file. -/
theorem move (h : Partition codec landed d current wal) {moved : Bytes} {wal' : SegmentWal}
    (hfile : wal'.file = wal.file) (hbuffer : wal.buffer = moved ++ wal'.buffer) :
    Partition codec landed (d.write wal.file moved) current wal' where
  isOpen := hfile ▸ h.isOpen
  bound := h.bound
  apart := h.apart
  injective := h.injective
  fresh := h.fresh
  sorted := h.sorted
  placed := h.placed
  holds := by
    intro segmentId file hfind
    have hholds := h.holds segmentId file hfind
    rw [SegmentFiles.read_write]
    by_cases heq : segmentId = current
    · obtain rfl : file = wal.file := by
        have hfind : d.find segmentId = some file := hfind
        rw [heq, h.find_current] at hfind
        exact (Option.some.inj hfind).symm
      rw [if_pos heq, hbuffer] at hholds
      rw [if_pos rfl, if_pos heq, List.append_assoc]
      exact hholds
    · have hne : file ≠ wal.file := by
        rintro rfl
        exact heq (h.injective segmentId current _ hfind h.find_current)
      rw [if_neg hne, if_neg heq]
      rwa [if_neg heq] at hholds

theorem spill (h : Partition codec landed d current wal) (count : ℕ) :
    Partition codec landed (wal.spill d count).1 current (wal.spill d count).2 :=
  h.move rfl (List.take_append_drop count wal.buffer).symm

theorem sync (h : Partition codec landed d current wal) :
    Partition codec landed (wal.sync d).1 current (wal.sync d).2 :=
  h.move rfl (List.append_nil _).symm

theorem maybeSync (h : Partition codec landed d current wal) (options : WalOptions) :
    Partition codec landed (wal.maybeSyncInternal options d).1 current
      (wal.maybeSyncInternal options d).2 := by
  unfold SegmentWal.maybeSyncInternal
  split
  · exact h
  · exact h.sync
  · exact h.sync
  · split
    · exact h.sync
    · exact h

/-- The writes of a call go behind what is buffered. -/
theorem writes (h : Partition codec landed d current wal) (options : WalOptions) (callId : ℕ)
    {records : List WalRecord} (hrecords : ∀ record ∈ records, record.WellFormed) :
    Partition codec (landed ++ [⟨current, callId, records⟩]) d current
      (records.foldl (SegmentWal.writeRecord codec options) wal) := by
  obtain ⟨bytes, hframes, hfile, hbuffer⟩ := wal.foldl_writeRecord options hrecords
  refine ⟨hfile ▸ h.isOpen, h.bound, h.apart, h.injective, h.fresh, ?_, ?_, ?_⟩
  · intro segmentId file hfind
    have hholds := h.holds segmentId file hfind
    rw [Landed.recordsIn_append, Landed.recordsIn_singleton]
    by_cases heq : segmentId = current
    · rw [if_pos heq] at hholds
      rw [if_pos heq, if_pos heq.symm, hbuffer, ← List.append_assoc]
      exact hholds.append hframes
    · rw [if_neg heq] at hholds
      rw [if_neg heq, if_neg (Ne.symm heq), List.append_nil (Landed.recordsIn landed segmentId)]
      exact hholds
  · rw [List.pairwise_append]
    refine ⟨h.sorted, List.pairwise_singleton _ _, ?_⟩
    intro e he e' he'
    rw [List.mem_singleton.mp he']
    exact h.placed_le he
  · intro e he
    rcases List.mem_append.mp he with he | he
    · exact h.placed e he
    · rw [List.mem_singleton.mp he]
      exact ⟨wal.file, h.find_current⟩

theorem append (h : Partition codec landed d current wal) (options : WalOptions) (callId : ℕ)
    {records : List WalRecord} (hrecords : ∀ record ∈ records, record.WellFormed) :
    Partition codec (landed ++ [⟨current, callId, records⟩])
      (wal.append codec options d records).1 current (wal.append codec options d records).2 :=
  (h.writes options callId hrecords).maybeSync options

/-! ## A new segment -/

/-- A segment behind all others is empty. -/
theorem recordsIn_eq_nil (h : Partition codec landed d current wal) {segmentId : ℕ}
    (hlt : current < segmentId) : Landed.recordsIn landed segmentId = [] := by
  have hnone : (landed.filter fun e => e.segment = segmentId) = [] := by
    rw [List.filter_eq_nil_iff]
    intro e he
    have hle := h.placed_le he
    have hne : e.segment ≠ segmentId := by omega
    simpa using hne
  rw [Landed.recordsIn, hnone, List.flatMap_nil]

theorem find_eq_none (h : Partition codec landed d current wal) {segmentId : ℕ}
    (hlt : current < segmentId) : d.find segmentId = none := by
  by_contra hsome
  obtain ⟨file, hfind⟩ := Option.ne_none_iff_exists'.mp hsome
  have hle := h.bound segmentId file hfind
  omega

/-- The next segment is opened, after the current one has been written out. -/
theorem create (h : Partition codec landed d current wal) (hbuffer : wal.buffer = []) :
    Partition codec landed (d.newFile (current + 1)) (current + 1)
      (SegmentWal.newWithFile d.nextFile) := by
  have hlt : current < current + 1 := Nat.lt_succ_self current
  have hwal : d.wal.lookup (current + 1) = none := by
    have hnone := h.find_eq_none hlt
    unfold SegmentFiles.find at hnone
    exact (Option.or_eq_none_iff.mp hnone).2
  have harchive : d.archive.lookup (current + 1) = none := by
    have hnone := h.find_eq_none hlt
    unfold SegmentFiles.find at hnone
    exact (Option.or_eq_none_iff.mp hnone).1
  have hself : (d.newFile (current + 1)).wal.lookup (current + 1) = some d.nextFile :=
    AList.lookup_insert _
  have hother : ∀ {segmentId}, segmentId ≠ current + 1 →
      (d.newFile (current + 1)).wal.lookup segmentId = d.wal.lookup segmentId :=
    fun hne => AList.lookup_insert_ne hne
  have hfindSelf : (d.newFile (current + 1)).find (current + 1) = some d.nextFile :=
    SegmentFiles.find_of_wal hself harchive
  have hfindOther : ∀ {segmentId}, segmentId ≠ current + 1 →
      (d.newFile (current + 1)).find segmentId = d.find segmentId := by
    intro segmentId hne
    unfold SegmentFiles.find
    rw [hother hne]
    rfl
  -- what is found is the new file or was there before
  have hcases : ∀ {segmentId file}, (d.newFile (current + 1)).find segmentId = some file →
      segmentId = current + 1 ∧ file = d.nextFile ∨
        segmentId ≠ current + 1 ∧ d.find segmentId = some file := by
    intro segmentId file hfind
    by_cases heq : segmentId = current + 1
    · rw [heq, hfindSelf] at hfind
      exact Or.inl ⟨heq, (Option.some.inj hfind).symm⟩
    · rw [hfindOther heq] at hfind
      exact Or.inr ⟨heq, hfind⟩
  refine ⟨hself, ?_, ?_, ?_, ?_, ?_, h.sorted, ?_⟩
  · intro segmentId file hfind
    rcases hcases hfind with ⟨rfl, -⟩ | ⟨-, hfind⟩
    · exact le_rfl
    · exact (h.bound segmentId file hfind).trans hlt.le
  · intro segmentId file hlookup
    by_cases heq : segmentId = current + 1
    · rw [heq]
      exact harchive
    · exact h.apart segmentId file ((hother heq).symm.trans hlookup)
  · intro segmentId segmentId' file hfind hfind'
    rcases hcases hfind with ⟨rfl, rfl⟩ | ⟨-, hold⟩
    · rcases hcases hfind' with ⟨rfl, -⟩ | ⟨-, hold'⟩
      · rfl
      · exact absurd (h.fresh segmentId' _ hold') (lt_irrefl _)
    · rcases hcases hfind' with ⟨rfl, rfl⟩ | ⟨-, hold'⟩
      · exact absurd (h.fresh segmentId _ hold) (lt_irrefl _)
      · exact h.injective segmentId segmentId' file hold hold'
  · intro segmentId file hfind
    rcases hcases hfind with ⟨-, rfl⟩ | ⟨-, hold⟩
    · exact Nat.lt_succ_self _
    · exact (h.fresh segmentId file hold).trans (Nat.lt_succ_self _)
  · intro segmentId file hfind
    rcases hcases hfind with ⟨rfl, rfl⟩ | ⟨hne, hold⟩
    · rw [SegmentFiles.read_newFile, if_pos rfl, if_pos rfl, h.recordsIn_eq_nil hlt]
      exact .nil
    · have hholds := h.holds segmentId file hold
      rw [hbuffer, ite_self] at hholds
      rw [SegmentFiles.read_newFile, if_neg (h.fresh segmentId file hold).ne, if_neg hne]
      exact hholds
  · intro e he
    obtain ⟨file, hfind⟩ := h.placed e he
    have hne : e.segment ≠ current + 1 := by
      have hle := h.placed_le he
      omega
    exact ⟨file, (hfindOther hne).trans hfind⟩

/-- A segment that is not the current one moves to the archive. -/
theorem rename (h : Partition codec landed d current wal) {segmentId file : ℕ}
    (hlookup : d.wal.lookup segmentId = some file) (hlt : segmentId < current) :
    Partition codec landed (d.rename segmentId file) current wal := by
  have hfind : (d.rename segmentId file).find = d.find := by
    funext segmentId'
    unfold SegmentFiles.find SegmentFiles.rename
    by_cases heq : segmentId' = segmentId
    · rw [heq, AList.lookup_insert, h.apart segmentId file hlookup, hlookup, Option.none_or,
        Option.some_or]
    · rw [AList.lookup_insert_ne heq, AList.lookup_erase_ne heq]
  refine ⟨?_, ?_, ?_, ?_, ?_, ?_, h.sorted, ?_⟩
  · exact (AList.lookup_erase_ne hlt.ne').trans h.isOpen
  · rw [hfind]
    exact h.bound
  · intro segmentId' file' hlookup'
    have hlookup' : (d.wal.erase segmentId).lookup segmentId' = some file' := hlookup'
    obtain ⟨hne, hlookup'⟩ := lookup_erase_eq_some_iff.mp hlookup'
    exact (AList.lookup_insert_ne hne).trans (h.apart segmentId' file' hlookup')
  · rw [hfind]
    exact h.injective
  · rw [hfind]
    exact h.fresh
  · rw [hfind]
    exact h.holds
  · rw [hfind]
    exact h.placed

/-- Only what is read counts. -/
theorem congr_read (h : Partition codec landed d current wal) {d' : SegmentFiles}
    (hwal : d'.wal = d.wal) (harchive : d'.archive = d.archive) (hnext : d'.nextFile = d.nextFile)
    (hread : d'.read = d.read) : Partition codec landed d' current wal := by
  have hfind : d'.find = d.find := by
    funext segmentId
    rw [SegmentFiles.find, SegmentFiles.find, hwal, harchive]
  exact ⟨hwal ▸ h.isOpen, hfind ▸ h.bound, by rw [hwal, harchive]; exact h.apart,
    hfind ▸ h.injective, by rw [hfind, hnext]; exact h.fresh, by rw [hfind, hread]; exact h.holds,
    h.sorted, hfind ▸ h.placed⟩

theorem congr_wal (h : Partition codec landed d current wal) {wal' : SegmentWal}
    (hfile : wal'.file = wal.file) (hbuffer : wal'.buffer = wal.buffer) :
    Partition codec landed d current wal' :=
  ⟨hfile ▸ h.isOpen, h.bound, h.apart, h.injective, h.fresh, hbuffer ▸ h.holds, h.sorted, h.placed⟩

/-- `rotate_segment`: the next segment is opened, and the current one is written out when it
is dropped. -/
theorem rotate (h : Partition codec landed d current wal) :
    Partition codec landed (wal.sync (d.openTruncate (current + 1)).2).1 (current + 1)
      (SegmentWal.newWithFile (d.openTruncate (current + 1)).1) := by
  have hwal : d.wal.lookup (current + 1) = none := by
    have hnone := h.find_eq_none (Nat.lt_succ_self current)
    unfold SegmentFiles.find at hnone
    exact (Option.or_eq_none_iff.mp hnone).2
  have hopened : d.openTruncate (current + 1) = (d.nextFile, d.newFile (current + 1)) := by
    rw [SegmentFiles.openTruncate, hwal]
  rw [hopened]
  have hne : wal.file ≠ d.nextFile := (h.fresh current wal.file h.find_current).ne
  refine (h.sync.create rfl).congr_read rfl rfl rfl ?_
  funext file
  show ((d.newFile (current + 1)).write wal.file wal.buffer).read file =
    ((d.write wal.file wal.buffer).newFile (current + 1)).read file
  rw [SegmentFiles.read_write, SegmentFiles.read_newFile, SegmentFiles.read_newFile,
    SegmentFiles.read_newFile, SegmentFiles.read_write, SegmentFiles.nextFile_write, if_neg hne]
  by_cases heq : file = wal.file
  · rw [if_pos heq, if_pos heq, heq, if_neg hne]
  · rw [if_neg heq, if_neg heq]

end Partition

/-! ## Reading the segments back -/

namespace SegmentFiles

theorem mem_listDir {dir : HashMap ℕ ℕ} {e : ℕ × ℕ} :
    e ∈ listDir dir ↔ dir.lookup e.1 = some e.2 := by
  unfold listDir
  rw [List.mem_map]
  constructor
  · rintro ⟨⟨segmentId, file⟩, hmem, rfl⟩
    exact AList.mem_lookup_iff.mpr hmem
  · intro hlookup
    exact ⟨⟨e.1, e.2⟩, AList.mem_lookup_iff.mp hlookup, rfl⟩

theorem nodup_listDir (dir : HashMap ℕ ℕ) : (listDir dir).Pairwise fun a b => a.1 ≠ b.1 := by
  unfold listDir
  rw [List.pairwise_map]
  exact List.pairwise_map.mp dir.nodupKeys

end SegmentFiles

namespace Partition

variable {codec : WalCodec} {landed : List Landed} {d : SegmentFiles} {current : ℕ}
  {wal : SegmentWal}

/-- The segments as `recover_pitr` goes through them. -/
theorem segments_spec (h : Partition codec landed d current wal) :
    ∃ segments : List (ℕ × ℕ),
      Groups.dedupByKey Prod.fst ((SegmentFiles.listDir d.archive ++
        SegmentFiles.listDir d.wal).insertionSort fun a b => a.1 ≤ b.1) = segments ∧
      segments.Pairwise (fun a b => a.1 < b.1) ∧
      ∀ e, e ∈ segments ↔ d.find e.1 = some e.2 := by
  have hmem : ∀ e, e ∈ SegmentFiles.listDir d.archive ++ SegmentFiles.listDir d.wal ↔
      d.find e.1 = some e.2 := by
    intro e
    rw [List.mem_append, SegmentFiles.mem_listDir, SegmentFiles.mem_listDir]
    constructor
    · rintro (harchive | hwal)
      · exact SegmentFiles.find_of_archive harchive
      · exact SegmentFiles.find_of_wal hwal (h.apart e.1 e.2 hwal)
    · exact SegmentFiles.of_find
  -- no number is in both directories
  have hnodup : (SegmentFiles.listDir d.archive ++
      SegmentFiles.listDir d.wal).Pairwise fun a b => a.1 ≠ b.1 := by
    rw [List.pairwise_append]
    refine ⟨SegmentFiles.nodup_listDir _, SegmentFiles.nodup_listDir _, ?_⟩
    intro a ha b hb heq
    rw [SegmentFiles.mem_listDir] at ha hb
    have hnone := h.apart b.1 b.2 hb
    rw [← heq, ha] at hnone
    contradiction
  generalize SegmentFiles.listDir d.archive ++ SegmentFiles.listDir d.wal = listed at hmem hnodup
  have hperm : (listed.insertionSort fun a b => a.1 ≤ b.1).Perm listed :=
    List.perm_insertionSort _ _
  have hsorted : (listed.insertionSort fun a b : ℕ × ℕ => a.1 ≤ b.1).Pairwise
      fun a b => a.1 ≤ b.1 := by
    have htotal : Std.Total fun a b : ℕ × ℕ => a.1 ≤ b.1 := ⟨fun a b => le_total a.1 b.1⟩
    have htrans : IsTrans (ℕ × ℕ) fun a b => a.1 ≤ b.1 := ⟨fun _ _ _ => le_trans⟩
    exact List.pairwise_insertionSort _ _
  have hdistinct : (listed.insertionSort fun a b => a.1 ≤ b.1).Pairwise
      fun a b => a.1 ≠ b.1 := (hperm.pairwise_iff fun hne => hne.symm).mpr hnodup
  -- so there is nothing for `dedup_by_key` to drop
  refine ⟨_, Groups.dedupByKey_eq_self hdistinct, ?_, fun e => hperm.mem_iff.trans (hmem e)⟩
  exact hsorted.imp₂ (fun _ _ hle hne => lt_of_le_of_ne hle hne) hdistinct

theorem recoverSegments (hcodec : codec.Inverts) (h : Partition codec landed d current wal)
    (hbuffer : wal.buffer = []) {segments : List (ℕ × ℕ)}
    (hsegments : ∀ e ∈ segments, d.find e.1 = some e.2) :
    d.recoverSegments codec (2 ^ 64 - 1) segments =
      .ok (segments.flatMap fun e => Landed.recordsIn landed e.1) := by
  induction segments with
  | nil => rfl
  | cons e segments ih =>
      obtain ⟨segmentId, file⟩ := e
      rw [List.forall_mem_cons] at hsegments
      have hframes := h.holds segmentId file hsegments.1
      rw [hbuffer, ite_self, List.append_nil] at hframes
      have hall : (Landed.recordsIn landed segmentId).filter
          (fun record => record.timestamp ≤ 2 ^ 64 - 1) = Landed.recordsIn landed segmentId := by
        rw [List.filter_eq_self]
        intro record hrecord
        have := (hframes.wellFormed record hrecord).timestamp
        simp only [decide_eq_true_eq]
        omega
      rw [SegmentFiles.recoverSegments, WalCodec.recover_of_frames hcodec hframes]
      simp only [hall, ih hsegments.2]
      rfl

/-- Recovery returns what the calls have appended, one call after the other. -/
theorem recoverPitr (hcodec : codec.Inverts) (h : Partition codec landed d current wal)
    (hbuffer : wal.buffer = []) :
    d.recoverPitr codec (2 ^ 64 - 1) = .ok (landed.flatMap Landed.records) := by
  obtain ⟨segments, hdedup, hsorted, hmem⟩ := h.segments_spec
  have hkeys : (segments.map Prod.fst).Pairwise (· < ·) := List.pairwise_map.mpr hsorted
  have hplaced : ∀ e ∈ landed, e.segment ∈ segments.map Prod.fst := by
    intro e he
    obtain ⟨file, hfind⟩ := h.placed e he
    exact List.mem_map.mpr ⟨(e.segment, file), (hmem _).mpr hfind, rfl⟩
  have hgroups := Groups.flatMap_filter_key hkeys h.sorted hplaced
  rw [SegmentFiles.recoverPitr, hdedup,
    h.recoverSegments hcodec hbuffer fun e he => (hmem e).mp he]
  congr 1
  calc (segments.flatMap fun e => Landed.recordsIn landed e.1)
      = (segments.map Prod.fst).flatMap (Landed.recordsIn landed) := by rw [List.flatMap_map]
    _ = ((segments.map Prod.fst).flatMap fun segmentId =>
          landed.filter fun e => e.segment = segmentId).flatMap Landed.records := by
        rw [List.flatMap_assoc]
        rfl
    _ = landed.flatMap Landed.records := by rw [hgroups]

end Partition

/-! ## Between two sessions -/

/-- No manager is open: nothing has been written yet, or everything is in the files. -/
def Rests (codec : WalCodec) (landed : List Landed) (d : SegmentFiles) : Prop :=
  d = SegmentFiles.empty ∧ landed = [] ∨
    ∃ current wal, wal.buffer = [] ∧ Partition codec landed d current wal

theorem Rests.recoverPitr {codec : WalCodec} {landed : List Landed} {d : SegmentFiles}
    (hcodec : codec.Inverts) (h : Rests codec landed d) :
    d.recoverPitr codec (2 ^ 64 - 1) = .ok (landed.flatMap Landed.records) := by
  rcases h with ⟨rfl, rfl⟩ | ⟨current, wal, hbuffer, h⟩
  · rfl
  · exact h.recoverPitr hcodec hbuffer

theorem foldl_max_eq {segments : List ℕ} {current init : ℕ} (hmem : current ∈ segments)
    (hle : ∀ segmentId ∈ segments, segmentId ≤ current) (hinit : init ≤ current) :
    segments.foldl max init = current := by
  have hmax : ∀ {segments : List ℕ} {init}, init ≤ current →
      (∀ segmentId ∈ segments, segmentId ≤ current) →
        (current ∈ segments ∨ init = current) → segments.foldl max init = current := by
    intro segments
    induction segments with
    | nil => exact fun _ _ h => h.resolve_left List.not_mem_nil
    | cons segmentId segments ih =>
        intro init hinit hle h
        rw [List.forall_mem_cons] at hle
        apply ih (max_le hinit hle.1) hle.2
        rcases h with hmem | rfl
        · rcases List.mem_cons.mp hmem with rfl | hmem
          · exact Or.inr (max_eq_right hinit)
          · exact Or.inl hmem
        · exact Or.inr (max_eq_left hle.1)
  exact hmax hinit hle (Or.inl hmem)

/-- The first segment of all. -/
theorem partition_first (codec : WalCodec) :
    Partition codec [] (SegmentFiles.empty.newFile 1) 1 (SegmentWal.newWithFile 0) := by
  have hfind : ∀ {segmentId file}, (SegmentFiles.empty.newFile 1).find segmentId = some file →
      segmentId = 1 ∧ file = 0 := by
    intro segmentId file hfind
    rcases SegmentFiles.of_find hfind with hlookup | hlookup
    · contradiction
    · have hlookup : ((∅ : HashMap ℕ ℕ).insert 1 0).lookup segmentId = some file := hlookup
      by_cases heq : segmentId = 1
      · rw [heq, AList.lookup_insert] at hlookup
        exact ⟨heq, (Option.some.inj hlookup).symm⟩
      · rw [AList.lookup_insert_ne heq] at hlookup
        contradiction
  refine ⟨rfl, ?_, fun _ _ _ => rfl, ?_, ?_, ?_, List.Pairwise.nil, ?_⟩
  · exact fun segmentId file h => (hfind h).1.le
  · exact fun segmentId segmentId' file h h' => (hfind h).1.trans (hfind h').1.symm
  · intro segmentId file h
    rw [(hfind h).2]
    exact Nat.one_pos
  · intro segmentId file h
    obtain ⟨rfl, rfl⟩ := hfind h
    exact .nil
  · exact fun e he => absurd he List.not_mem_nil

/-- A manager goes on with the newest segment. -/
theorem Rests.open {codec : WalCodec} {landed : List Landed} {d : SegmentFiles}
    (h : Rests codec landed d) (options : WalManagerOptions) :
    Partition codec landed (WalManager.open options d).1
      (WalManager.open options d).2.inner.currentSegment
      (WalManager.open options d).2.inner.currentWal := by
  rcases h with ⟨rfl, rfl⟩ | ⟨current, wal, hbuffer, h⟩
  · exact partition_first codec
  · have hmem : current ∈ d.wal.keys := by
      rw [← AList.mem_keys, ← AList.lookup_isSome, h.isOpen]
      rfl
    have hle : ∀ segmentId ∈ d.wal.keys, segmentId ≤ current := by
      intro segmentId hin
      rw [← AList.mem_keys, ← AList.lookup_isSome] at hin
      obtain ⟨file, hlookup⟩ := Option.isSome_iff_exists.mp hin
      exact h.bound segmentId file
        (SegmentFiles.find_of_wal hlookup (h.apart segmentId file hlookup))
    have hlatest : (WalManager.findLatestSegment d.wal.keys).1 = current := by
      unfold WalManager.findLatestSegment
      rw [if_neg (List.ne_nil_of_mem hmem)]
      exact foldl_max_eq hmem hle (Nat.zero_le _)
    have hopened : d.openAppend current = (wal.file, d) := by
      rw [SegmentFiles.openAppend, h.isOpen]
    unfold WalManager.open
    simp only [hlatest, hopened]
    exact h.congr_wal rfl hbuffer.symm

end Crabstash

import Crabstash.Storage.DiskLsm
import Crabstash.Storage.Durability
import Crabstash.Storage.Readers

/-!
# From bytes to records

The rest of this development keeps a log as the list of its records, the manifest as the list
of its lines, and a table as the list of its entries.  Here the tree on its files runs in step
with that one (`Refines`).

Tables and the manifest read back as what they were written from at any time.  A log does not:
a part of the write buffer is in the file already, and it may end in the middle of a record.
So only file and buffer together are the bytes of the records, of which those that have been
synced are wholly in the file.  A crash leaves the records that are wholly inside what has
reached the file, or a log that cannot be read.  In the second case, if the log is among those
that the next opening replays, the opening fails, and it fails for no other reason
(`refines_records`).  A log that is closed before the process ends is read whole
(`reopens_closed`).
-/

namespace Crabstash

open Run

namespace DiskLsm

variable {codecs : Codecs}

/-! ## The relation -/

/-- The open file is that of a table that has been built. -/
structure Opens (codecs : Codecs) (t : TableFile) (sst : SSTable) : Prop where
  stores : t.Stores codecs.table sst
  holds : ∃ entries, sst.Holds entries
  bloom : 0 < sst.bloom.bits.length

/-- The file opens as the table. -/
def OpensAs (codecs : Codecs) (id : ℕ) (file : Bytes) (sst : SSTable) : Prop :=
  ∃ t, TableFile.openFile id file = .ok t ∧ Opens codecs t sst

/-- The file of a log and the write buffer hold the records, those that are synced in the file. -/
def LogHolds (codec : WalCodec) (file buffer : Bytes) (synced pending : List WalRecord) : Prop :=
  ∃ front back, file ++ buffer = front ++ back ∧ front.length ≤ file.length ∧
    codec.Frames front synced ∧ codec.Frames back pending

/-- The text is that of the lines. -/
def TextOf (file : List Char) (lines : List ManifestLine) : Prop :=
  file = lines.flatMap ManifestLine.text ∧ ∀ line ∈ lines, line.Fits

/-- The files read as those of the other directory. -/
structure ReadsAs (codecs : Codecs) (files : DiskDir) (dir : Dir) : Prop where
  manifest : Option.Rel TextOf files.manifest dir.manifest
  wals : ∀ walId < (Manifest.load (dir.manifest.getD [])).nextWalId,
    Option.Rel (fun file records => codecs.wal.recover file = .ok records) (files.wals walId)
      (dir.wals walId)
  ssts : ∀ id, Option.Rel (OpensAs codecs id) (files.ssts id) (dir.ssts id)

/-- The file and memory say the same: these lines. -/
structure Lists (manifest : ManifestSession) (lines : List ManifestLine) : Prop where
  replayed : manifest.Replayed lines
  manifest : manifest.manifest = LiveManifest.replay lines

/-- The directory of bytes and its memory stand for the directory of records. -/
structure Refines (codecs : Codecs) (d : DiskLsm) (s : Lsm) : Prop where
  onDisk : s.OnDisk
  memtable : d.memtable = s.memtable
  immutableMemtables : d.immutableMemtables = []
  levels : ∀ level, List.Forall₂ (Opens codecs) (d.levels level) (s.levels level)
  manifest : ∃ lines, s.dir.manifest = some lines ∧ Lists d.manifest lines
  walId : d.walId = s.wal.id
  log : ∃ file synced, d.wals s.wal.id = some file ∧ s.dir.wals s.wal.id = some synced ∧
    LogHolds codecs.wal file d.walBuffer synced s.wal.pending
  wals : ∀ walId < s.manifest.nextWalId, walId ≠ s.wal.id →
    Option.Rel (fun file records => codecs.wal.recover file = .ok records) (d.wals walId)
      (s.dir.wals walId)
  ssts : ∀ id, Option.Rel (OpensAs codecs id) (d.ssts id) (s.dir.ssts id)
  nextTs : d.nextTs = s.nextTs
  memtableSize : d.memtableSize = s.memtableSize

/-! ## Reading -/

theorem probe_eq (caches : (t : TableFile) → BlockCache codecs.table t) (key : Bytes)
    {tables : List TableFile} {ssts : List SSTable} (h : List.Forall₂ (Opens codecs) tables ssts) :
    probe codecs caches key tables = .ok (ssts.findSome? fun sst => sst.get key) := by
  induction h with
  | nil => rfl
  | @cons t sst _ _ hopens _ ih =>
      obtain ⟨entries, hholds⟩ := hopens.holds
      rw [probe, hopens.stores.get_eq hholds hopens.bloom (caches t) key, List.findSome?_cons]
      cases sst.get key with
      | none => exact ih
      | some value => rfl

theorem forall₂_flatMap {α β γ : Type} {R : β → γ → Prop} {f : α → List β} {g : α → List γ}
    {l : List α} (h : ∀ a ∈ l, List.Forall₂ R (f a) (g a)) :
    List.Forall₂ R (l.flatMap f) (l.flatMap g) := by
  induction l with
  | nil => exact .nil
  | cons a rest ih =>
      rw [List.forall_mem_cons] at h
      rw [List.flatMap_cons, List.flatMap_cons]
      exact List.rel_append h.1 (ih h.2)

/-- A read finds what it finds in the records, and does not fail. -/
theorem Refines.getAtTs_eq {d : DiskLsm} {s : Lsm} (h : Refines codecs d s)
    (caches : (t : TableFile) → BlockCache codecs.table t) (key : Bytes) (ts : ℕ) :
    d.getAtTs codecs caches key ts = .ok (s.getAtTs key ts) := by
  rw [Lsm.getAtTs_eq h.onDisk.immutableMemtables, getAtTs, h.memtable, h.immutableMemtables]
  cases s.memtable.getAtTs key ts with
  | some value => rfl
  | none =>
      have htables : List.Forall₂ (Opens codecs)
          ((List.range 7).flatMap fun level => (d.levels level).reverse) (Reader.probed s) :=
        forall₂_flatMap fun level _ => List.rel_reverse (h.levels level)
      show probe codecs caches key _ = .ok (Lsm.probe s.levels key)
      rw [Reader.probe_eq]
      exact probe_eq caches key htables

/-! ## Opening -/

theorem openLevel_eq {ssts : ℕ → Option Bytes} {tables : ℕ → Option SSTable}
    (h : ∀ id, Option.Rel (OpensAs codecs id) (ssts id) (tables id)) (ids : List ℕ) :
    ∃ level, openLevel ssts ids = .ok level ∧
      List.Forall₂ (Opens codecs) level (ids.filterMap tables) := by
  induction ids with
  | nil => exact ⟨[], rfl, .nil⟩
  | cons id rest ih =>
      obtain ⟨level, hlevel, hopens⟩ := ih
      have hid := h id
      rw [openLevel, List.filterMap_cons]
      generalize ssts id = file at hid
      generalize tables id = sst at hid
      cases hid with
      | none => exact ⟨level, hlevel, hopens⟩
      | some hopensAs =>
          obtain ⟨t, hopen, hown⟩ := hopensAs
          refine ⟨t :: level, ?_, .cons hown hopens⟩
          simp only [hopen, hlevel]
          rfl

theorem openLevels_eq {ssts : ℕ → Option Bytes} {tables : ℕ → Option SSTable}
    (h : ∀ id, Option.Rel (OpensAs codecs id) (ssts id) (tables id))
    (entries : List (Σ _ : ℕ, LevelMeta)) :
    ∃ levels, openLevels ssts entries = .ok levels ∧ ∀ level, List.Forall₂ (Opens codecs)
      (levels level)
      ((((entries.dlookup level).map LevelMeta.sstIds).getD []).filterMap tables) := by
  induction entries with
  | nil => exact ⟨fun _ => [], rfl, fun _ => .nil⟩
  | cons entry rest ih =>
      obtain ⟨own, levelMeta⟩ := entry
      obtain ⟨levels, hlevels, hrest⟩ := ih
      obtain ⟨opened, hopened, hown⟩ := openLevel_eq h levelMeta.sstIds
      refine ⟨Function.update levels own opened, ?_, ?_⟩
      · simp only [openLevels, hopened, hlevels]
        rfl
      · intro level
        by_cases hlevel : level = own
        · subst hlevel
          rw [Function.update_self, List.dlookup_cons_eq]
          exact hown
        · rw [Function.update_of_ne hlevel, List.dlookup_cons_ne _ _ hlevel]
          exact hrest level

/-- Logs that can be read are replayed as their records. -/
theorem replayLogs_eq {wals : ℕ → Option Bytes} {logs : ℕ → Option (List WalRecord)}
    {walIds : List ℕ} (h : ∀ walId ∈ walIds,
      Option.Rel (fun file records => codecs.wal.recover file = .ok records) (wals walId)
        (logs walId)) (memtable : MemTable) :
    replayLogs codecs wals walIds memtable =
      .ok (walIds.foldl (fun memtable walId => memtable.replay ((logs walId).getD []))
        memtable) := by
  induction walIds generalizing memtable with
  | nil => rfl
  | cons walId rest ih =>
      rw [List.forall_mem_cons] at h
      obtain ⟨hown, hrest⟩ := h
      rw [replayLogs, List.foldl_cons]
      generalize wals walId = file at hown
      generalize logs walId = log at hown
      cases hown with
      | none => exact ih hrest memtable
      | some hread =>
          simp only [hread]
          exact ih hrest (memtable.replay _)

theorem openManifest_eq {text : Option (List Char)} {lines : Option (List ManifestLine)}
    (h : Option.Rel TextOf text lines) :
    ∃ manifest, openManifest text = .ok manifest ∧ Lists manifest (lines.getD []) := by
  cases h with
  | none => exact ⟨ManifestSession.create, rfl, ManifestSession.replayed_create, rfl⟩
  | @some file lines htext =>
      obtain ⟨rfl, hfits⟩ := htext
      have hopen := LiveManifest.openFile_text hfits
      refine ⟨{ file := lines.flatMap ManifestLine.text, mode := .append
                manifest := LiveManifest.replay lines }, ?_, ?_, rfl⟩
      · simp only [openManifest, hopen]
      · exact ⟨rfl, Or.inl rfl, hfits, rfl, le_rfl, le_rfl⟩

theorem Lists.toManifest {manifest : ManifestSession} {lines : List ManifestLine}
    (h : Lists manifest lines) : manifest.manifest.toManifest = Manifest.load lines := by
  rw [h.manifest, LiveManifest.toManifest_replay h.replayed.fits]

theorem manifest_openDir (memtableSize : ℕ) (dir : Dir) :
    (Lsm.openDir memtableSize dir).manifest = Manifest.load (dir.manifest.getD []) := by
  unfold Lsm.openDir
  cases dir.manifest <;> rfl

theorem wals_openDir (memtableSize : ℕ) (dir : Dir) :
    (Lsm.openDir memtableSize dir).dir.wals =
      Function.update dir.wals (Manifest.load (dir.manifest.getD [])).nextWalId (some []) := by
  unfold Lsm.openDir
  cases dir.manifest <;> rfl

/-- A directory of which the logs to be replayed can be read is opened. -/
theorem refines_openDir {files : DiskDir} {dir : Dir} (h : ReadsAs codecs files dir)
    (memtableSize : ℕ) (compression : CompressionType) :
    ∃ d, openDir codecs memtableSize compression files = .ok d ∧
      Refines codecs d (Lsm.openDir memtableSize dir) := by
  obtain ⟨manifest, hmanifest, hlists⟩ := openManifest_eq h.manifest
  have hnext : manifest.manifest.nextWalId = _ := congrArg Manifest.nextWalId hlists.toManifest
  have hids : manifest.manifest.sstIds = _ := congrArg Manifest.levels hlists.toManifest
  obtain ⟨levels, hlevels, hopens⟩ := openLevels_eq h.ssts manifest.manifest.levels.entries
  have hwals := wals_openDir memtableSize dir
  have hload := manifest_openDir memtableSize dir
  rw [← hnext] at hwals
  -- the log that is created has none of the lower numbers
  have hlogs : ∀ walId < manifest.manifest.nextWalId,
      Option.Rel (fun file records => codecs.wal.recover file = .ok records)
        (Function.update files.wals manifest.manifest.nextWalId (some []) walId)
        ((Lsm.openDir memtableSize dir).dir.wals walId) := by
    intro walId hlt
    rw [hwals, Function.update_of_ne hlt.ne, Function.update_of_ne hlt.ne]
    exact h.wals walId (hnext ▸ hlt)
  have hmemtable := replayLogs_eq (fun walId hwalId => hlogs walId (Lsm.mem_range'_one hwalId))
    MemTable.new
  have hnextWal : (Lsm.openDir memtableSize dir).manifest.nextWalId =
      manifest.manifest.nextWalId := by
    rw [hload, hnext]
  -- both replay the same numbers
  have hrecovered : (Lsm.openDir memtableSize dir).memtable =
      (List.range' 1 (manifest.manifest.nextWalId - 1)).foldl (fun memtable walId =>
        memtable.replay (((Lsm.openDir memtableSize dir).dir.wals walId).getD []))
        MemTable.new := by
    rw [← hnextWal]
    rfl
  rw [← hrecovered] at hmemtable
  refine ⟨{ memtable := (Lsm.openDir memtableSize dir).memtable, immutableMemtables := [], levels
            walId := manifest.manifest.nextWalId, walBuffer := [], manifest, nextTs := 1
            memtableSize, compression
            wals := Function.update files.wals manifest.manifest.nextWalId (some [])
            ssts := files.ssts }, ?_, ?_⟩
  · simp only [openDir, hmanifest, hlevels, hmemtable]
  · have hid : (Lsm.openDir memtableSize dir).wal.id = manifest.manifest.nextWalId := hnextWal
    have hfile : (Lsm.openDir memtableSize dir).dir.wals manifest.manifest.nextWalId = some [] := by
      rw [hwals, Function.update_self]
    exact
      { onDisk := Lsm.onDisk_openDir memtableSize dir
        memtable := rfl
        immutableMemtables := rfl
        levels := by
          intro level
          rw [(Lsm.onDisk_openDir memtableSize dir).levels level, hload, ← hids]
          exact hopens level
        manifest := ⟨dir.manifest.getD [], rfl, hlists⟩
        walId := hid.symm
        log := by
          rw [hid, hfile]
          exact ⟨[], [], Function.update_self .., rfl, [], [], rfl, le_rfl, .nil, .nil⟩
        wals := by
          intro walId hlt _
          exact hlogs walId (hnextWal ▸ hlt)
        ssts := h.ssts
        nextTs := rfl
        memtableSize := rfl }

/-! ## The log -/

variable {codec : WalCodec} {file buffer : Bytes} {synced pending : List WalRecord}

theorem LogHolds.append (h : LogHolds codec file buffer synced pending) {records : List WalRecord}
    (hrecords : ∀ record ∈ records, record.WellFormed) :
    LogHolds codec file (buffer ++ codec.encoded WalOptions.default records) synced
      (pending ++ records) := by
  obtain ⟨front, back, hbytes, hlength, hfront, hback⟩ := h
  refine ⟨front, back ++ codec.encoded WalOptions.default records, ?_, hlength, hfront,
    hback.append (WalCodec.frames_encoded _ hrecords)⟩
  rw [← List.append_assoc, hbytes, List.append_assoc]

/-- A part of the buffer comes into the file. -/
theorem LogHolds.spill (h : LogHolds codec file buffer synced pending) (n : ℕ) :
    LogHolds codec (file ++ buffer.take n) (buffer.drop n) synced pending := by
  obtain ⟨front, back, hbytes, hlength, hfront, hback⟩ := h
  refine ⟨front, back, ?_, ?_, hfront, hback⟩
  · rw [List.append_assoc, List.take_append_drop, hbytes]
  · rw [List.length_append]
    omega

/-- All of the buffer comes into the file. -/
theorem LogHolds.sync (h : LogHolds codec file buffer synced pending) :
    LogHolds codec (file ++ buffer) [] (synced ++ pending) [] := by
  obtain ⟨front, back, hbytes, -, hfront, hback⟩ := h
  exact ⟨file ++ buffer, [], rfl, le_rfl, hbytes ▸ hfront.append hback, .nil⟩

theorem LogHolds.recover (h : LogHolds codec file [] synced []) (hcodec : codec.Inverts) :
    codec.recover file = .ok synced := by
  obtain ⟨front, back, hbytes, -, hfront, hback⟩ := h
  cases hback
  rw [List.append_nil, List.append_nil] at hbytes
  rw [hbytes]
  exact WalCodec.recover_of_frames hcodec hfront

/-- What is left of the log is read as the records that were synced and some of the others, or
not at all. -/
theorem LogHolds.crash (h : LogHolds codec file buffer synced pending) (hcodec : codec.Inverts)
    (n : ℕ) :
    codec.recover (file ++ buffer.take n) = .error (.error .io) ∨
      ∃ survive, codec.recover (file ++ buffer.take n) = .ok (synced ++ pending.take survive) := by
  obtain ⟨front, back, hbytes, hlength, hfront, hback⟩ := h
  have htake : file ++ buffer.take n = (front ++ back).take (file.length + n) := by
    rw [← hbytes, List.take_append, List.take_of_length_le (Nat.le_add_right _ _),
      Nat.add_sub_cancel_left]
  rw [htake]
  refine (WalCodec.recover_take hcodec hfront hback (by omega)).imp_right ?_
  rintro ⟨more, hprefix, hread⟩
  exact ⟨more.length, by rw [hread, ← List.prefix_iff_eq_take.mp hprefix]⟩

/-! ## The manifest -/

/-- A number is taken for a log, and listed. -/
theorem Lists.newWal {manifest : ManifestSession} {lines : List ManifestLine}
    (h : Lists manifest lines) (hfits : manifest.manifest.nextWalId < 2 ^ 64 - 1) :
    Lists ((manifest.step .allocateWalId).addWal manifest.manifest.nextWalId)
      (lines ++ [.wal manifest.manifest.nextWalId]) where
  replayed := by
    have hallocated : (manifest.step .allocateWalId).Replayed (lines ++ []) :=
      h.replayed.step hfits
    rw [List.append_nil] at hallocated
    have hlisted : (manifest.step .allocateWalId).FitsStep
        (.addWal manifest.manifest.nextWalId) := hfits
    exact hallocated.step hlisted
  manifest := by
    have hsucc := LiveManifest.succ_eq hfits
    rw [LiveManifest.replay_append, ← h.manifest]
    show ((manifest.step .allocateWalId).writeln _).manifest.seeWal _ = manifest.manifest.seeWal _
    rw [ManifestSession.manifest_writeln]
    simp only [ManifestSession.step, LiveManifest.allocateWalId, LiveManifest.seeWal, hsucc,
      max_self, LiveManifest.mk.injEq, true_and]
    omega

/-- A number is taken for a table, and listed. -/
theorem Lists.newSst {manifest : ManifestSession} {lines : List ManifestLine}
    (h : Lists manifest lines) (hfits : manifest.manifest.nextSstId < 2 ^ 64 - 1) :
    Lists ((manifest.step .allocateSstId).addSst 0 manifest.manifest.nextSstId)
      (lines ++ [.sst 0 manifest.manifest.nextSstId]) where
  replayed := by
    have hallocated : (manifest.step .allocateSstId).Replayed (lines ++ []) :=
      h.replayed.step hfits
    rw [List.append_nil] at hallocated
    have hlisted : (manifest.step .allocateSstId).FitsStep
        (.addSst 0 manifest.manifest.nextSstId) := ⟨by decide, hfits⟩
    exact hallocated.step hlisted
  manifest := by
    have hsucc := LiveManifest.succ_eq hfits
    rw [LiveManifest.replay_append, ← h.manifest]
    show ((manifest.step .allocateSstId).writeln _).manifest.pushSst _ _ =
      manifest.manifest.pushSst _ _
    rw [ManifestSession.manifest_writeln]
    simp only [ManifestSession.step, LiveManifest.allocateSstId, LiveManifest.pushSst, hsucc,
      max_self, LiveManifest.mk.injEq, true_and, and_true]
    omega

/-! ## The steps -/

section

variable {d : DiskLsm} {s : Lsm}

theorem Refines.toManifest (h : Refines codecs d s) :
    d.manifest.manifest.toManifest = s.manifest := by
  obtain ⟨lines, hlines, hlists⟩ := h.manifest
  obtain ⟨lines', hlines', hload⟩ := h.onDisk.manifest
  obtain rfl : lines = lines' := Option.some.inj (hlines.symm.trans hlines')
  rw [hlists.toManifest, hload]

theorem Refines.nextWalId (h : Refines codecs d s) :
    d.manifest.manifest.nextWalId = s.manifest.nextWalId := congrArg Manifest.nextWalId h.toManifest

theorem Refines.nextSstId (h : Refines codecs d s) :
    d.manifest.manifest.nextSstId = s.manifest.nextSstId := congrArg Manifest.nextSstId h.toManifest

theorem Refines.logged (h : Refines codecs d s) {op : Op}
    (hrecords : ∀ record ∈ Lsm.batchRecords d.nextTs op.operations, record.WellFormed) :
    Refines codecs (d.logged codecs op) (s.logged op) := by
  rw [Lsm.logged, Lsm.writes_eq]
  obtain ⟨file, synced, hfile, hsynced, hlog⟩ := h.log
  exact
    { h with
      onDisk := ⟨h.onDisk.immutableMemtables, h.onDisk.manifest, h.onDisk.levels,
        h.onDisk.wal_pos, h.onDisk.wal⟩
      memtable := by
        show Lsm.insertBatch d.nextTs _ d.memtable = Lsm.insertBatch s.nextTs _ s.memtable
        rw [h.nextTs, h.memtable]
      log := by
        refine ⟨file, synced, hfile, hsynced, ?_⟩
        have happended := hlog.append hrecords
        rw [h.nextTs] at happended
        show LogHolds codecs.wal file (d.walBuffer ++ codecs.wal.encoded _
          (Lsm.batchRecords d.nextTs _)) _ _
        rw [h.nextTs]
        exact happended
      nextTs := congrArg (· + op.operations.length) h.nextTs }

theorem Refines.spill (h : Refines codecs d s) (n : ℕ) : Refines codecs (d.spill n) s := by
  obtain ⟨file, synced, hfile, hsynced, hlog⟩ := h.log
  exact
    { h with
      log := by
        refine ⟨file ++ d.walBuffer.take n, synced, ?_, hsynced, hlog.spill n⟩
        simp [DiskLsm.spill, h.walId, hfile]
      wals := by
        intro walId hlt hne
        have hold := h.wals walId hlt hne
        rw [← h.walId] at hne
        simpa [DiskLsm.spill, hne] using hold }

theorem Refines.sync (h : Refines codecs d s) : Refines codecs d.sync s.flushWal := by
  obtain ⟨file, synced, hfile, hsynced, hlog⟩ := h.log
  have hspilled := h.spill d.walBuffer.length
  exact
    { hspilled with
      onDisk := h.onDisk.flushWal
      log := by
        refine ⟨file ++ d.walBuffer, synced ++ s.wal.pending, ?_, ?_, ?_⟩
        · simp [DiskLsm.sync, DiskLsm.spill, Lsm.flushWal, h.walId, hfile]
        · simp [Lsm.flushWal, hsynced]
        · have hbuffer : d.sync.walBuffer = [] := List.drop_length
          rw [hbuffer]
          exact hlog.sync
      wals := by
        intro walId hlt hne
        have hold := hspilled.wals walId hlt hne
        have hsame : s.flushWal.dir.wals walId = s.dir.wals walId := Function.update_of_ne hne _ _
        rw [hsame]
        exact hold }

/-- The log that is left has been synced, so it can be read. -/
theorem Refines.switchWal (h : Refines codecs d s) (hcodecs : codecs.Inverts)
    (hbuffer : d.walBuffer = []) (hpending : s.wal.pending = [])
    (hfits : d.manifest.manifest.nextWalId < 2 ^ 64 - 1) :
    Refines codecs d.switchWal s.switchWal := by
  obtain ⟨lines, hlines, hlists⟩ := h.manifest
  obtain ⟨file, synced, hfile, hsynced, hlog⟩ := h.log
  have hnext := h.nextWalId
  exact
    { h with
      onDisk := h.onDisk.switchWal
      manifest := by
        refine ⟨lines ++ [.wal s.manifest.nextWalId], ?_, ?_⟩
        · simp [Lsm.switchWal, Lsm.logLine, hlines]
        · rw [← hnext]
          exact hlists.newWal hfits
      walId := hnext
      log := by
        refine ⟨[], [], ?_, Function.update_self .., [], [], rfl, le_rfl, .nil, .nil⟩
        show Function.update d.wals d.manifest.manifest.nextWalId _ s.manifest.nextWalId = _
        rw [hnext, Function.update_self]
      wals := by
        intro walId hlt hne
        have hne : walId ≠ s.manifest.nextWalId := hne
        rw [Lsm.nextWalId_switchWal] at hlt
        show Option.Rel _ (Function.update d.wals d.manifest.manifest.nextWalId _ walId)
          (Function.update s.dir.wals s.manifest.nextWalId _ walId)
        rw [hnext, Function.update_of_ne hne, Function.update_of_ne hne]
        by_cases hown : walId = s.wal.id
        · subst hown
          -- nothing of the log left is still in a buffer, so its file holds it all
          rw [hbuffer, hpending] at hlog
          rw [hfile, hsynced]
          exact .some (hlog.recover hcodecs.wal)
        · exact h.wals walId (by omega) hown }

/-- The numbers that a rotation takes are not the last ones, and the lengths in the table fit
their fields. -/
structure FitsRotation (codecs : Codecs) (d : DiskLsm) : Prop where
  walId : d.manifest.manifest.nextWalId < 2 ^ 64 - 1
  sstId : d.manifest.manifest.nextSstId < 2 ^ 64 - 1
  table : TableFile.Fits codecs.table d.compression
    (Lsm.flushedTable d.manifest.manifest.nextSstId d.memtable)

instance (codecs : Codecs) (d : DiskLsm) : Decidable (FitsRotation codecs d) :=
  let table := Lsm.flushedTable d.manifest.manifest.nextSstId d.memtable
  decidable_of_iff
    (d.manifest.manifest.nextWalId < 2 ^ 64 - 1 ∧ d.manifest.manifest.nextSstId < 2 ^ 64 - 1 ∧
      (∀ e ∈ table.entries, TableFile.EntryFits e) ∧
      (∀ block ∈ table.blocks, TableFile.BlockFits codecs.table d.compression block) ∧
      table.blocks.length < 2 ^ 32 ∧ table.bloom.bits.length < 2 ^ 32)
    ⟨fun ⟨hwalId, hsstId, hentries, hblocks, hnumBlocks, hbloom⟩ =>
        ⟨hwalId, hsstId, hentries, hblocks, hnumBlocks, hbloom⟩,
      fun h => ⟨h.walId, h.sstId, h.table.entries, h.table.blocks, h.table.numBlocks,
        h.table.bloom⟩⟩

/-- The file that is built opens as the table. -/
theorem opensAs_build (hcodecs : codecs.Inverts) (sstId : ℕ) (imm : MemTable)
    {compression : CompressionType}
    (hfits : TableFile.Fits codecs.table compression (Lsm.flushedTable sstId imm)) :
    OpensAs codecs sstId
      (TableFile.Builder.build codecs.table sstId imm.len compression
        (imm.iter.map fun e => (e.1.data, e.2)))
      (Lsm.flushedTable sstId imm) := by
  obtain ⟨t, hopen, hstores⟩ :=
    TableFile.openFile_build hcodecs.table sstId imm.len compression _ hfits
  exact ⟨t, hopen, hstores, ⟨_, SSTableBuilder.holds_build _ _ _⟩,
    SSTableBuilder.bloom_build_pos _ _ _⟩

theorem rotateMemtable_eq (codecs : Codecs) (d : DiskLsm) :
    d.rotateMemtable codecs =
      flushImmutable codecs
        { d.sync.switchWal with
          memtable := MemTable.new
          immutableMemtables := d.immutableMemtables ++ [d.memtable] } d.memtable := rfl

theorem flushImmutable_of_open {imm : MemTable} {sst : TableFile}
    (hopen : TableFile.openFile d.manifest.manifest.nextSstId
      (TableFile.Builder.build codecs.table d.manifest.manifest.nextSstId imm.len d.compression
        (imm.iter.map fun e => (e.1.data, e.2))) = .ok sst) :
    d.flushImmutable codecs imm =
      .ok
        { d with
          immutableMemtables := d.immutableMemtables.dropLast
          levels := Function.update d.levels 0 (d.levels 0 ++ [sst])
          manifest :=
            (d.manifest.step .allocateSstId).addSst 0 d.manifest.manifest.nextSstId
          ssts := Function.update d.ssts d.manifest.manifest.nextSstId
            (some (TableFile.Builder.build codecs.table d.manifest.manifest.nextSstId imm.len
              d.compression (imm.iter.map fun e => (e.1.data, e.2)))) } := by
  simp only [flushImmutable, hopen]

theorem Refines.flushMemtable (h : Refines codecs d s)
    (hfits : d.manifest.manifest.nextSstId < 2 ^ 64 - 1) {file : Bytes} {sst : TableFile}
    (hopen : TableFile.openFile d.manifest.manifest.nextSstId file = .ok sst)
    (hopens : Opens codecs sst s.nextTable) :
    Refines codecs
      { d with
        memtable := MemTable.new
        levels := Function.update d.levels 0 (d.levels 0 ++ [sst])
        manifest := (d.manifest.step .allocateSstId).addSst 0 d.manifest.manifest.nextSstId
        ssts := Function.update d.ssts d.manifest.manifest.nextSstId (some file) }
      s.flushMemtable := by
  obtain ⟨lines, hlines, hlists⟩ := h.manifest
  have hnext := h.nextSstId
  exact
    { h with
      onDisk := h.onDisk.flushMemtable
      memtable := rfl
      levels := by
        intro level
        show List.Forall₂ _ (Function.update d.levels 0 _ level)
          (Function.update s.levels 0 _ level)
        -- the new table is the last of level 0 in both
        by_cases hlevel : level = 0
        · subst hlevel
          rw [Function.update_self, Function.update_self]
          exact List.rel_append (h.levels 0) (.cons hopens .nil)
        · rw [Function.update_of_ne hlevel, Function.update_of_ne hlevel]
          exact h.levels level
      manifest := by
        refine ⟨lines ++ [.sst 0 s.manifest.nextSstId], ?_, ?_⟩
        · simp [Lsm.flushMemtable, Lsm.logLine, hlines]
        · rw [← hnext]
          exact hlists.newSst hfits
      ssts := by
        intro id
        show Option.Rel _ (Function.update d.ssts d.manifest.manifest.nextSstId _ id)
          (Function.update s.dir.ssts s.manifest.nextSstId _ id)
        rw [hnext]
        by_cases hid : id = s.manifest.nextSstId
        · subst hid
          rw [Function.update_self, Function.update_self]
          exact .some ⟨sst, hnext ▸ hopen, hopens⟩
        · rw [Function.update_of_ne hid, Function.update_of_ne hid]
          exact h.ssts id }

theorem Refines.rotate (h : Refines codecs d s) (hcodecs : codecs.Inverts)
    (hfits : d.FitsRotation codecs) :
    ∃ d', d.rotateMemtable codecs = .ok d' ∧ Refines codecs d' s.rotate := by
  have hswitched := h.sync.switchWal hcodecs List.drop_length rfl hfits.walId
  have hnext : d.sync.switchWal.manifest.manifest.nextSstId = d.manifest.manifest.nextSstId :=
    hswitched.nextSstId.trans h.nextSstId.symm
  obtain ⟨sst, hopen, hopens⟩ := opensAs_build hcodecs d.manifest.manifest.nextSstId d.memtable
    hfits.table
  have htable : s.flushWal.switchWal.nextTable =
      Lsm.flushedTable d.manifest.manifest.nextSstId d.memtable := by
    rw [h.memtable, h.nextSstId]
    rfl
  rw [← htable] at hopens
  have hdrop : (d.immutableMemtables ++ [d.memtable]).dropLast = d.immutableMemtables :=
    List.dropLast_concat
  rw [← hnext] at hopen
  refine ⟨_, ?_, hswitched.flushMemtable (hnext ▸ hfits.sstId) hopen hopens⟩
  rw [rotateMemtable_eq]
  refine (flushImmutable_of_open (d := { d.sync.switchWal with
    memtable := MemTable.new
    immutableMemtables := d.immutableMemtables ++ [d.memtable] }) hopen).trans ?_
  simp only [hdrop]
  rfl

/-! ## A process that ends -/

/-- What is left of the log when the first `n` bytes of the write buffer have reached the file can
be read, or the log is not replayed. -/
def SurvivesCut (codecs : Codecs) (d : DiskLsm) (n : ℕ) : Prop :=
  d.walId < d.manifest.manifest.nextWalId →
    ∃ records, codecs.wal.recover (((d.spill n).wals d.walId).getD []) = .ok records

instance (codecs : Codecs) (d : DiskLsm) (n : ℕ) : Decidable (d.SurvivesCut codecs n) :=
  decidable_of_iff (d.walId < d.manifest.manifest.nextWalId →
    (codecs.wal.recover (((d.spill n).wals d.walId).getD [])).isOk = true) (by
      unfold SurvivesCut
      cases codecs.wal.recover (((d.spill n).wals d.walId).getD []) <;>
        simp [Except.isOk, Except.toBool])

theorem Refines.manifest_text (h : Refines codecs d s) :
    Option.Rel TextOf (some d.manifest.file) s.dir.manifest := by
  obtain ⟨lines, hlines, hlists⟩ := h.manifest
  rw [hlines]
  exact .some ⟨hlists.replayed.file, hlists.replayed.fits⟩

theorem Refines.load_manifest (h : Refines codecs d s) :
    Manifest.load (s.dir.manifest.getD []) = s.manifest := by
  obtain ⟨lines, hlines, hload⟩ := h.onDisk.manifest
  rw [hlines, hload]
  rfl

/-- What is left of the log. -/
theorem Refines.wal_spill (h : Refines codecs d s) {file : Bytes}
    (hfile : d.wals s.wal.id = some file) (n : ℕ) :
    (d.spill n).wals s.wal.id = some (file ++ d.walBuffer.take n) := by
  simp [DiskLsm.spill, h.walId, hfile]

/-- If it is to be replayed, it is read as some of the records. -/
theorem Refines.readsAs_of_recover (h : Refines codecs d s) {file : Bytes}
    {synced : List WalRecord} (hfile : d.wals s.wal.id = some file)
    (hsynced : s.dir.wals s.wal.id = some synced) {n survive : ℕ}
    (hread : s.wal.id < s.manifest.nextWalId →
      codecs.wal.recover (file ++ d.walBuffer.take n) =
        .ok (synced ++ s.wal.pending.take survive)) :
    ReadsAs codecs (d.endSession n) (s.endSession survive) := by
  refine ⟨h.manifest_text, ?_, h.ssts⟩
  intro walId hlt
  have hlt : walId < (Manifest.load (s.dir.manifest.getD [])).nextWalId := hlt
  rw [h.load_manifest] at hlt
  show Option.Rel _ ((d.spill n).wals walId) (Function.update s.dir.wals s.wal.id _ walId)
  by_cases hown : walId = s.wal.id
  · subst hown
    rw [h.wal_spill hfile n, Function.update_self, hsynced]
    exact .some (hread hlt)
  · rw [Function.update_of_ne hown]
    exact (h.spill n).wals walId hlt hown

theorem Refines.readsAs_endSession (h : Refines codecs d s) (hcodecs : codecs.Inverts) {n : ℕ}
    (hcut : d.SurvivesCut codecs n) :
    ∃ survive, ReadsAs codecs (d.endSession n) (s.endSession survive) := by
  obtain ⟨file, synced, hfile, hsynced, hlog⟩ := h.log
  by_cases hlisted : s.wal.id < s.manifest.nextWalId
  · rcases hlog.crash hcodecs.wal n with herror | ⟨survive, hread⟩
    · rw [← h.walId, ← h.nextWalId] at hlisted
      obtain ⟨records, hrecords⟩ := hcut hlisted
      rw [h.walId, h.wal_spill hfile n, Option.getD_some, herror] at hrecords
      contradiction
    · exact ⟨survive, h.readsAs_of_recover hfile hsynced fun _ => hread⟩
  · exact ⟨0, h.readsAs_of_recover hfile hsynced fun hlt => absurd hlt hlisted⟩

/-- Where all of the write buffer has reached the file, all records are read. -/
theorem Refines.readsAs_closed (h : Refines codecs d s) (hcodecs : codecs.Inverts)
    (hbuffer : d.walBuffer = []) (n : ℕ) :
    ReadsAs codecs (d.endSession n) (s.endSession s.wal.pending.length) := by
  obtain ⟨file, synced, hfile, hsynced, hlog⟩ := h.log
  have hsync := hlog.sync
  rw [hbuffer, List.append_nil] at hsync
  refine h.readsAs_of_recover hfile hsynced fun _ => ?_
  rw [hbuffer, List.take_nil, List.append_nil, List.take_length]
  exact hsync.recover hcodecs.wal

/-- The last of the logs cannot be read. -/
theorem replayLogs_of_error {wals : ℕ → Option Bytes} {logs : ℕ → Option (List WalRecord)}
    {walIds : List ℕ} (h : ∀ walId ∈ walIds,
      Option.Rel (fun file records => codecs.wal.recover file = .ok records) (wals walId)
        (logs walId)) {last : ℕ} {file : Bytes} {e : WalFailure} (hlast : wals last = some file)
    (herror : codecs.wal.recover file = .error e) (memtable : MemTable) :
    replayLogs codecs wals (walIds ++ [last]) memtable = .error (.wal e) := by
  induction walIds generalizing memtable with
  | nil => simp only [List.nil_append, replayLogs, hlast, herror]
  | cons walId rest ih =>
      rw [List.forall_mem_cons] at h
      obtain ⟨hown, hrest⟩ := h
      rw [List.cons_append, replayLogs]
      generalize wals walId = other at hown
      generalize logs walId = log at hown
      cases hown with
      | none => exact ih hrest memtable
      | some hread =>
          simp only [hread]
          exact ih hrest (memtable.replay _)

/-- A log that is to be replayed and cannot be read stops the opening. -/
theorem Refines.openDir_of_torn (h : Refines codecs d s) (hcodecs : codecs.Inverts) {n : ℕ}
    (hcut : ¬ d.SurvivesCut codecs n) (memtableSize : ℕ) (compression : CompressionType) :
    openDir codecs memtableSize compression (d.endSession n) = .error (.wal (.error .io)) := by
  obtain ⟨file, synced, hfile, -, hlog⟩ := h.log
  have hleft := h.wal_spill hfile n
  unfold SurvivesCut at hcut
  push Not at hcut
  obtain ⟨hlisted, hunread⟩ := hcut
  rw [h.walId, h.nextWalId] at hlisted
  -- a cut that leaves no list of whole records is one inside a record
  have herror : codecs.wal.recover (file ++ d.walBuffer.take n) = .error (.error .io) := by
    refine (hlog.crash hcodecs.wal n).resolve_right ?_
    rintro ⟨survive, hread⟩
    rw [h.walId, hleft] at hunread
    exact hunread _ hread
  obtain ⟨manifest, hmanifest, hlists⟩ := openManifest_eq h.manifest_text
  obtain ⟨levels, hlevels, -⟩ := openLevels_eq h.ssts manifest.manifest.levels.entries
  have hnext : manifest.manifest.nextWalId = s.manifest.nextWalId := by
    rw [← h.load_manifest, ← hlists.toManifest]
    rfl
  -- the logs before the last are read to their ends
  have hlogs : ∀ walId ∈ List.range' 1 (s.wal.id - 1),
      Option.Rel (fun file records => codecs.wal.recover file = .ok records)
        (Function.update (d.spill n).wals s.manifest.nextWalId (some []) walId)
        (s.dir.wals walId) := by
    intro walId hwalId
    have hbefore := Lsm.mem_range'_one hwalId
    rw [Function.update_of_ne (by omega)]
    exact (h.spill n).wals walId (by omega) hbefore.ne
  have hlast : Function.update (d.spill n).wals s.manifest.nextWalId (some []) s.wal.id =
      some (file ++ d.walBuffer.take n) := by
    rw [Function.update_of_ne hlisted.ne, hleft]
  have hreplay := replayLogs_of_error hlogs hlast herror MemTable.new
  rw [← h.onDisk.range'_eq hlisted] at hreplay
  simp only [openDir, endSession, hmanifest, hlevels, hnext, hreplay]

/-! ## Runs -/

/-- The records of the operation fit a record each, and so does the rotation that it goes on
to. -/
def FitsStep (codecs : Codecs) : Except DiskFailure DiskLsm → DiskStep → Prop
  | .ok d, .op op =>
      (∀ record ∈ Lsm.batchRecords d.nextTs op.operations, record.WellFormed) ∧
        (op.checksSize = true →
          (d.logged codecs op).memtableSize ≤ (d.logged codecs op).memtable.size →
          (d.logged codecs op).FitsRotation codecs)
  | _, _ => True

instance (codecs : Codecs) : ∀ s action, Decidable (FitsStep codecs s action)
  | .ok _, .op _ => inferInstanceAs (Decidable (_ ∧ _))
  | .ok _, .sync | .ok _, .spill _ | .ok _, .reopen _ _ _ | .error _, _ =>
      inferInstanceAs (Decidable True)

/-- A process does not end in a way that leaves a log which cannot be read. -/
def SurvivesStep (codecs : Codecs) : Except DiskFailure DiskLsm → DiskStep → Prop
  | .ok d, .reopen n _ _ => d.SurvivesCut codecs n
  | _, _ => True

instance (codecs : Codecs) : ∀ s action, Decidable (SurvivesStep codecs s action)
  | .ok _, .reopen _ _ _ => inferInstanceAs (Decidable (SurvivesCut _ _ _))
  | .ok _, .sync | .ok _, .spill _ | .ok _, .op _ | .error _, _ =>
      inferInstanceAs (Decidable True)

/-- What the step is on records. -/
def Follows : DiskStep → List SessionOp → Prop
  | .op op, piece => piece = [.op op]
  | .sync, piece => piece = [.sync]
  | .spill _, piece => piece = []
  | .reopen _ memtableSize _, piece => ∃ survive, piece = [.reopen survive memtableSize]

theorem Refines.op (h : Refines codecs d s) (hcodecs : codecs.Inverts) {op : Op}
    (hfits : FitsStep codecs (.ok d) (.op op)) :
    ∃ d', d.act codecs (.op op) = .ok d' ∧ Refines codecs d' (s.step op) := by
  obtain ⟨hrecords, hrotation⟩ := hfits
  have hlogged := h.logged hrecords
  have hfull : (d.logged codecs op).memtableSize ≤ (d.logged codecs op).memtable.size ↔
      (s.logged op).full := by
    rw [hlogged.memtableSize, hlogged.memtable]
    rfl
  rw [act_op, Lsm.step_eq]
  by_cases hchecks : op.checksSize = true
  · rw [if_pos hchecks, rotateIfFull]
    by_cases hsize : (d.logged codecs op).memtableSize ≤ (d.logged codecs op).memtable.size
    · rw [if_pos hsize, if_pos ⟨hchecks, hfull.mp hsize⟩]
      exact hlogged.rotate hcodecs (hrotation hchecks hsize)
    · rw [if_neg hsize, if_neg fun hrotates => hsize (hfull.mpr hrotates.2)]
      exact ⟨_, rfl, hlogged⟩
  · rw [if_neg hchecks, if_neg fun hrotates => hchecks hrotates.1]
    exact ⟨_, rfl, hlogged⟩

theorem Refines.act (h : Refines codecs d s) (hcodecs : codecs.Inverts) {action : DiskStep}
    (hfits : FitsStep codecs (.ok d) action) (hsurvives : SurvivesStep codecs (.ok d) action) :
    ∃ d' piece, d.act codecs action = .ok d' ∧ Follows action piece ∧
      Refines codecs d' (run Lsm.sessionStep s piece) := by
  cases action with
  | op op =>
      obtain ⟨d', hact, hrefines⟩ := h.op hcodecs hfits
      exact ⟨d', [.op op], hact, rfl, hrefines⟩
  | sync => exact ⟨d.sync, [.sync], rfl, rfl, h.sync⟩
  | spill n => exact ⟨d.spill n, [], rfl, rfl, h.spill n⟩
  | reopen n memtableSize compression =>
      obtain ⟨survive, hreads⟩ := h.readsAs_endSession hcodecs hsurvives
      obtain ⟨d', hopen, hrefines⟩ := refines_openDir hreads memtableSize compression
      exact ⟨d', [.reopen survive memtableSize], hopen, ⟨survive, rfl⟩, hrefines⟩

/-- If each step of a run is some steps on records that meet `P`, the run is a run on records. -/
theorem exists_pieces {Q : Except DiskFailure DiskLsm → DiskStep → Prop}
    {P : Lsm → SessionOp → Prop}
    (hstep : ∀ d s action, Refines codecs d s → Q (.ok d) action →
      ∃ d' piece, d.act codecs action = .ok d' ∧ Follows action piece ∧
        Along Lsm.sessionStep P s piece ∧ Refines codecs d' (run Lsm.sessionStep s piece))
    (h : Refines codecs d s) {steps : List DiskStep}
    (hsteps : Along (step codecs) Q (.ok d) steps) :
    ∃ d' pieces, run (step codecs) (.ok d) steps = .ok d' ∧ List.Forall₂ Follows steps pieces ∧
      Along Lsm.sessionStep P s pieces.flatten ∧
      Refines codecs d' (run Lsm.sessionStep s pieces.flatten) := by
  induction steps generalizing d s with
  | nil => exact ⟨d, [], rfl, .nil, trivial, h⟩
  | cons action rest ih =>
      obtain ⟨hown, hrest⟩ := hsteps
      obtain ⟨d₁, piece, hact, hfollows, hpiece, hrefines⟩ := hstep d s action h hown
      have hnext : step codecs (.ok d) action = .ok d₁ := hact
      rw [hnext] at hrest
      obtain ⟨d', pieces, hrun, hall, hpieces, hlast⟩ := ih hrefines hrest
      refine ⟨d', piece :: pieces, ?_, .cons hfollows hall, ?_, ?_⟩
      · rw [run_cons, hnext, hrun]
      · rw [List.flatten_cons]
        exact along_append.mpr ⟨hpiece, hpieces⟩
      · rw [List.flatten_cons, run_append]
        exact hlast

theorem run_error (codecs : Codecs) (e : DiskFailure) (steps : List DiskStep) :
    run (step codecs) (.error e) steps = .error e := by
  induction steps with
  | nil => rfl
  | cons action rest ih => exact ih

/-- The first log that is left torn stops the run. -/
theorem Refines.torn_run (h : Refines codecs d s) (hcodecs : codecs.Inverts)
    {steps : List DiskStep} (hfits : Along (step codecs) (FitsStep codecs) (.ok d) steps)
    (htorn : ¬ Along (step codecs) (SurvivesStep codecs) (.ok d) steps) :
    run (step codecs) (.ok d) steps = .error (.wal (.error .io)) := by
  induction steps generalizing d s with
  | nil => exact absurd trivial htorn
  | cons action rest ih =>
      obtain ⟨hown, hrest⟩ := hfits
      rw [run_cons]
      by_cases hkept : SurvivesStep codecs (.ok d) action
      · obtain ⟨d₁, piece, hact, -, hrefines⟩ := h.act hcodecs hown hkept
        have hstep : step codecs (.ok d) action = .ok d₁ := hact
        rw [hstep] at hrest ⊢
        refine ih hrefines hrest fun hkeeps => htorn ⟨hkept, ?_⟩
        rw [hstep]
        exact hkeeps
      · cases action with
        | reopen n memtableSize compression =>
            have hopen := h.openDir_of_torn hcodecs hkept memtableSize compression
            have hstep : step codecs (.ok d) (.reopen n memtableSize compression) =
                .error (.wal (.error .io)) := hopen
            rw [hstep, run_error]
        | op op => exact absurd trivial hkept
        | sync => exact absurd trivial hkept
        | spill n => exact absurd trivial hkept

theorem readsAs_empty (codecs : Codecs) : ReadsAs codecs DiskDir.empty Dir.empty where
  manifest := .none
  wals := fun _ _ => .none
  ssts := fun _ => .none

/-- The database that a fresh directory is opened as. -/
def created (codecs : Codecs) (memtableSize : ℕ) (compression : CompressionType) :
    Except DiskFailure DiskLsm := openDir codecs memtableSize compression DiskDir.empty

/-- Over any number of sessions, the database reads as the records it is made of say.  The only
failure is that of opening a log which a crash has cut inside a record. -/
theorem refines_records (hcodecs : codecs.Inverts) (memtableSize : ℕ)
    (compression : CompressionType) (steps : List DiskStep)
    (hfits : Along (step codecs) (FitsStep codecs) (created codecs memtableSize compression)
      steps) :
    (Along (step codecs) (SurvivesStep codecs) (created codecs memtableSize compression) steps →
      ∃ d pieces, run (step codecs) (created codecs memtableSize compression) steps = .ok d ∧
        List.Forall₂ Follows steps pieces ∧
        let s := run Lsm.sessionStep (Lsm.openDir memtableSize Dir.empty) pieces.flatten
        Refines codecs d s ∧
          ∀ caches key ts, d.getAtTs codecs caches key ts = .ok (s.getAtTs key ts)) ∧
    (¬ Along (step codecs) (SurvivesStep codecs) (created codecs memtableSize compression) steps →
      run (step codecs) (created codecs memtableSize compression) steps =
        .error (.wal (.error .io))) := by
  obtain ⟨d, hopen, hrefines⟩ :=
    refines_openDir (readsAs_empty codecs) memtableSize compression
  have hcreated : created codecs memtableSize compression = .ok d := hopen
  rw [hcreated] at hfits ⊢
  constructor
  · intro hsurvives
    -- each step of the disk is one or several of the records
    have hstep : ∀ d s action, Refines codecs d s →
        FitsStep codecs (.ok d) action ∧ SurvivesStep codecs (.ok d) action →
        ∃ d' piece, d.act codecs action = .ok d' ∧ Follows action piece ∧
          Along Lsm.sessionStep (fun _ _ => True) s piece ∧
          Refines codecs d' (run Lsm.sessionStep s piece) := by
      intro d s action h hown
      obtain ⟨d', piece, hact, hfollows, hlast⟩ := h.act hcodecs hown.1 hown.2
      exact ⟨d', piece, hact, hfollows, along_of_forall (fun _ _ => trivial) s, hlast⟩
    obtain ⟨d', pieces, hrun, hfollows, -, hlast⟩ :=
      exists_pieces hstep hrefines (hfits.and hsurvives)
    exact ⟨d', pieces, hrun, hfollows, hlast,
      fun caches key ts => hlast.getAtTs_eq caches key ts⟩
  · intro htorn
    exact hrefines.torn_run hcodecs hfits htorn

/-- Two writes of a key, of which the second fills the memtable, and two more.  A part of these
is in the log when the process ends. -/
def cutSession (survive : ℕ) : List DiskStep :=
  [.op (.put [7] [1]), .spill 3, .op (.put [7] [2]), .op (.put [8] [3]), .op (.delete [7]),
    .spill 5, .reopen survive 100 .none]

/-- With 27 bytes of it in the file the first record is read.  With 35 the log ends behind the
header of the second one. -/
theorem refines_records_cutSession :
    let codecs : Codecs := ⟨WalHistory.storingCodec, TableFile.literalCodec⟩
    (∃ d pieces, run (step codecs) (created codecs 4 .none) (cutSession 22) = .ok d ∧
      List.Forall₂ Follows (cutSession 22) pieces ∧
      let s := run Lsm.sessionStep (Lsm.openDir 4 Dir.empty) pieces.flatten
      Refines codecs d s ∧
        ∀ caches key ts, d.getAtTs codecs caches key ts = .ok (s.getAtTs key ts)) ∧
    run (step codecs) (created codecs 4 .none) (cutSession 30) = .error (.wal (.error .io)) := by
  intro codecs
  have hcodecs : codecs.Inverts := ⟨WalHistory.inverts_storingCodec, TableFile.inverts_literalCodec⟩
  constructor
  · exact (refines_records hcodecs 4 .none (cutSession 22) (by decide +kernel)).1
      (by decide +kernel)
  · exact (refines_records hcodecs 4 .none (cutSession 30) (by decide +kernel)).2
      (by decide +kernel)

/-! ## Databases that are closed -/

/-- A process that ends has let all of the write buffer through, as closing does. -/
def ClosedStep : Except DiskFailure DiskLsm → DiskStep → Prop
  | .ok d, .reopen _ _ _ => d.walBuffer = []
  | _, _ => True

instance : ∀ s action, Decidable (ClosedStep s action)
  | .ok d, .reopen _ _ _ => inferInstanceAs (Decidable (d.walBuffer = []))
  | .ok _, .sync | .ok _, .spill _ | .ok _, .op _ | .error _, _ =>
      inferInstanceAs (Decidable True)

/-- All that has been written to the log is still there. -/
def KeepsLog (s : Lsm) : SessionOp → Prop
  | .reopen survive _ => s.wal.pending.length ≤ survive
  | _ => True

theorem Refines.act_closed (h : Refines codecs d s) (hcodecs : codecs.Inverts)
    {action : DiskStep} (hfits : FitsStep codecs (.ok d) action)
    (hclosed : ClosedStep (.ok d) action) :
    ∃ d' piece, d.act codecs action = .ok d' ∧ Follows action piece ∧
      Along Lsm.sessionStep KeepsLog s piece ∧
      Refines codecs d' (run Lsm.sessionStep s piece) := by
  cases action with
  | op op =>
      obtain ⟨d', hact, hrefines⟩ := h.op hcodecs hfits
      exact ⟨d', [.op op], hact, rfl, ⟨trivial, trivial⟩, hrefines⟩
  | sync => exact ⟨d.sync, [.sync], rfl, rfl, ⟨trivial, trivial⟩, h.sync⟩
  | spill n => exact ⟨d.spill n, [], rfl, rfl, trivial, h.spill n⟩
  | reopen n memtableSize compression =>
      obtain ⟨d', hopen, hrefines⟩ :=
        refines_openDir (h.readsAs_closed hcodecs hclosed n) memtableSize compression
      exact ⟨d', [.reopen s.wal.pending.length memtableSize], hopen, ⟨_, rfl⟩,
        ⟨le_refl s.wal.pending.length, trivial⟩, hrefines⟩

/-- A database that is closed each time opens each time, and the logs have lost nothing. -/
theorem reopens_closed (hcodecs : codecs.Inverts) (memtableSize : ℕ)
    (compression : CompressionType) (steps : List DiskStep)
    (hfits : Along (step codecs) (FitsStep codecs) (created codecs memtableSize compression)
      steps)
    (hclosed : Along (step codecs) ClosedStep (created codecs memtableSize compression) steps) :
    ∃ d pieces, run (step codecs) (created codecs memtableSize compression) steps = .ok d ∧
      List.Forall₂ Follows steps pieces ∧
      let s := Lsm.openDir memtableSize Dir.empty
      Along Lsm.sessionStep KeepsLog s pieces.flatten ∧
        ∀ caches key ts, d.getAtTs codecs caches key ts =
          .ok ((run Lsm.sessionStep s pieces.flatten).getAtTs key ts) := by
  obtain ⟨d, hopen, hrefines⟩ :=
    refines_openDir (readsAs_empty codecs) memtableSize compression
  have hcreated : created codecs memtableSize compression = .ok d := hopen
  rw [hcreated] at hfits hclosed ⊢
  obtain ⟨d', pieces, hrun, hfollows, hkeeps, hlast⟩ :=
    exists_pieces (fun _ _ _ h hown => h.act_closed hcodecs hown.1 hown.2) hrefines
      (hfits.and hclosed)
  exact ⟨d', pieces, hrun, hfollows, hkeeps, fun caches key ts => hlast.getAtTs_eq caches key ts⟩

/-- A rotation and a write behind it, closed and opened again. -/
def closedSession : List DiskStep :=
  [.op (.put [7] [1]), .op (.put [7] [2]), .op (.put [8] [3]), .sync, .reopen 0 100 .none,
    .op (.delete [8])]

theorem reopens_closed_closedSession :
    let codecs : Codecs := ⟨WalHistory.storingCodec, TableFile.literalCodec⟩
    ∃ d pieces, run (step codecs) (created codecs 4 .none) closedSession = .ok d ∧
      List.Forall₂ Follows closedSession pieces ∧
      let s := Lsm.openDir 4 Dir.empty
      Along Lsm.sessionStep KeepsLog s pieces.flatten ∧
        ∀ caches key ts, d.getAtTs codecs caches key ts =
          .ok ((run Lsm.sessionStep s pieces.flatten).getAtTs key ts) :=
  reopens_closed ⟨WalHistory.inverts_storingCodec, TableFile.inverts_literalCodec⟩ 4 .none
    closedSession (by decide +kernel) (by decide +kernel)

end

end DiskLsm
end Crabstash

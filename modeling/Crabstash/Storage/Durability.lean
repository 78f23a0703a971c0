import Crabstash.Storage.Session

/-!
# What survives a restart

A restart rebuilds the database from the tables in the manifest and from the
logs numbered below the manifest's `next_wal_id`, the *listed* ones.  The log of
a session takes the first number that is not listed.  It is listed by the first
rotation of the session, which at the same time truncates it; the logs of later
rotations are listed when they are made.  Opening truncates the first log that
is not listed, so what has been written since the session began and not been
rotated is lost, however often it has been synced.

Logs are never removed.  A key with a record in a listed log is therefore
restored from that record, and `Durable` is the invariant that the newest such
record is the newest value the running database has for the key.  The writes
that keep it are those of `WriteKept`: before the first rotation of a session a
write must not become the newest version of a key with a listed record, and
after it a write must not be older than such a record, which it may be because
timestamps begin at one again in every session.

`newest_synced` says that a sync then makes the newest value of every key
durable, provided that the log of the session is listed or empty.  The compaction
thread is not there yet; `ThreadedSessions` adds it.
-/

namespace Crabstash

open Crabstash.Action Run

/-! ## Replaying a log -/

namespace MemTable

theorem replay_append (m : MemTable) (records records' : List WalRecord) :
    m.replay (records ++ records') = (m.replay records).replay records' :=
  List.foldl_append

/-- The versions after a replay are those before it and those of the records. -/
theorem exists_mem_iter_replay {m : MemTable} {records : List WalRecord} {key : Key} :
    (∃ e ∈ (m.replay records).iter, e.1 = key) ↔
      (∃ e ∈ m.iter, e.1 = key) ∨ ∃ record ∈ records, record.version = key := by
  induction records generalizing m with
  | nil => simp [replay]
  | cons record rest ih =>
      have hcons : m.replay (record :: rest) =
          (m.record record.version record.effect).replay rest := by
        rw [← replayRecord_eq]
        rfl
      have hrecord : (∃ e ∈ (m.record record.version record.effect).iter, e.1 = key) ↔
          (∃ e ∈ m.iter, e.1 = key) ∨ record.version = key := by
        constructor
        · intro ⟨e, he, hkey⟩
          rcases mem_iter_record.mp he with rfl | ⟨he, _⟩
          · exact Or.inr hkey
          · exact Or.inl ⟨e, he, hkey⟩
        · intro h
          by_cases hversion : record.version = key
          · exact ⟨_, mem_iter_record.mpr (Or.inl rfl), hversion⟩
          · obtain ⟨e, he, rfl⟩ := h.resolve_right hversion
            exact ⟨e, mem_iter_record.mpr (Or.inr ⟨he, Ne.symm hversion⟩), rfl⟩
      rw [hcons, ih, hrecord, List.exists_mem_cons_iff, or_assoc]

end MemTable

namespace Lsm

/-! ## Logs -/

/-- The records of a log file once the buffer has been written out. -/
def walRecords (s : Lsm) (walId : ℕ) : List WalRecord :=
  (s.dir.wals walId).getD [] ++ if walId = s.wal.id then s.wal.pending else []

/-- The records of the logs below `next_wal_id`, in the order of the replay. -/
def listedRecords (s : Lsm) : List WalRecord :=
  (List.range' 1 (s.manifest.nextWalId - 1)).flatMap s.walRecords

/-- The memtable that replaying the listed logs builds. -/
def recovered (s : Lsm) : MemTable := MemTable.new.replay s.listedRecords

/-- The log of the session is among those that a restart replays. -/
def Listed (s : Lsm) : Prop := s.wal.id < s.manifest.nextWalId

instance (s : Lsm) : Decidable s.Listed := inferInstanceAs (Decidable (_ < _))

theorem recoverMemtable_eq (dir : Dir) (nextWalId : ℕ) :
    recoverMemtable dir nextWalId = MemTable.new.replay
      ((List.range' 1 (nextWalId - 1)).flatMap fun walId => (dir.wals walId).getD []) := by
  unfold recoverMemtable
  generalize List.range' 1 (nextWalId - 1) = walIds
  generalize MemTable.new = m
  induction walIds generalizing m with
  | nil => rfl
  | cons walId rest ih =>
      rw [List.foldl_cons, ih, List.flatMap_cons, MemTable.replay_append]

/-- A key has a version in the recovered memtable exactly if a listed record has it. -/
theorem exists_mem_recovered {s : Lsm} {key : Key} :
    (∃ e ∈ s.recovered.iter, e.1 = key) ↔ ∃ record ∈ s.listedRecords, record.version = key := by
  rw [recovered, MemTable.exists_mem_iter_replay]
  simp

/-! ## The directory -/

/-- The files of the directory agree with the state in memory. -/
structure OnDisk (s : Lsm) : Prop where
  immutableMemtables : s.immutableMemtables = []
  manifest : ∃ lines, s.dir.manifest = some lines ∧ s.manifest = Manifest.load lines
  levels : ∀ level, s.levels level = (s.manifest.levels level).filterMap s.dir.ssts
  wal_pos : 0 < s.wal.id
  wal : s.wal.id = s.manifest.nextWalId ∨ s.wal.id + 1 = s.manifest.nextWalId

theorem OnDisk.numbered {s : Lsm} (h : s.OnDisk) : s.manifest.Numbered := by
  obtain ⟨lines, _, hload⟩ := h.manifest
  rw [hload]
  exact Manifest.numbered_load lines

theorem OnDisk.write {s : Lsm} (h : s.OnDisk) (key : Bytes) (value : Option Bytes) (ts : ℕ) :
    (s.write key value ts).OnDisk :=
  ⟨h.immutableMemtables, h.manifest, h.levels, h.wal_pos, h.wal⟩

theorem OnDisk.advance {s : Lsm} (h : s.OnDisk) (count : ℕ) : (s.advance count).OnDisk :=
  ⟨h.immutableMemtables, h.manifest, h.levels, h.wal_pos, h.wal⟩

theorem OnDisk.flushWal {s : Lsm} (h : s.OnDisk) : s.flushWal.OnDisk :=
  ⟨h.immutableMemtables, h.manifest, h.levels, h.wal_pos, h.wal⟩

theorem nextWalId_switchWal (s : Lsm) :
    s.switchWal.manifest.nextWalId = s.manifest.nextWalId + 1 :=
  max_self (s.manifest.nextWalId + 1)

theorem OnDisk.switchWal {s : Lsm} (h : s.OnDisk) : s.switchWal.OnDisk where
  immutableMemtables := h.immutableMemtables
  manifest := by
    obtain ⟨lines, hlines, hload⟩ := h.manifest
    refine ⟨lines ++ [.wal s.manifest.nextWalId], ?_, ?_⟩
    · simp [Lsm.switchWal, logLine, hlines]
    rw [Manifest.load_append, ← hload]
    simp [Lsm.switchWal, Manifest.allocateWalId, Manifest.applyLine]
  levels := h.levels
  wal_pos := h.numbered.wal
  wal := Or.inr (nextWalId_switchWal s).symm

theorem OnDisk.flushMemtable {s : Lsm} (h : s.OnDisk) : s.flushMemtable.OnDisk where
  immutableMemtables := h.immutableMemtables
  manifest := by
    obtain ⟨lines, hlines, hload⟩ := h.manifest
    refine ⟨lines ++ [.sst 0 s.manifest.nextSstId], ?_, ?_⟩
    · simp [Lsm.flushMemtable, logLine, hlines]
    rw [Manifest.load_append, ← hload]
    simp [Lsm.flushMemtable, Manifest.allocateSstId, Manifest.applyLine]
  levels := by
    -- the new number is not in any level yet, so the older tables are found as before
    have hold : ∀ level, (s.manifest.levels level).filterMap
        (Function.update s.dir.ssts s.manifest.nextSstId (some s.nextTable)) = s.levels level := by
      intro level
      rw [h.levels level]
      refine List.filterMap_congr fun id hid => ?_
      rw [Function.update_of_ne (h.numbered.sst level id hid).ne]
    have hids : s.flushMemtable.manifest.levels =
        Function.update s.manifest.levels 0 (s.manifest.levels 0 ++ [s.manifest.nextSstId]) := rfl
    have hssts : s.flushMemtable.dir.ssts =
        Function.update s.dir.ssts s.manifest.nextSstId (some s.nextTable) := rfl
    have hlevels : s.flushMemtable.levels =
        Function.update s.levels 0 (s.levels 0 ++ [s.nextTable]) := rfl
    intro level
    rw [hids, hssts, hlevels]
    by_cases hlevel : level = 0
    · subst hlevel
      rw [Function.update_self, Function.update_self, List.filterMap_append, hold 0]
      simp
    · rw [Function.update_of_ne hlevel, Function.update_of_ne hlevel, hold level]
  wal_pos := h.wal_pos
  wal := h.wal

theorem OnDisk.rotate {s : Lsm} (h : s.OnDisk) : s.rotate.OnDisk :=
  h.flushWal.switchWal.flushMemtable

theorem onDisk_openDir (memtableSize : ℕ) (dir : Dir) : (openDir memtableSize dir).OnDisk where
  immutableMemtables := rfl
  manifest := by
    refine ⟨dir.manifest.getD [], rfl, ?_⟩
    unfold openDir
    cases dir.manifest <;> rfl
  levels := fun _ => rfl
  wal_pos := by
    unfold openDir
    cases dir.manifest with
    | none => exact Nat.one_pos
    | some lines => exact (Manifest.numbered_load lines).wal
  wal := Or.inl rfl

/-! ## What each step does to the listed records -/

theorem mem_range'_one {n walId : ℕ} (h : walId ∈ List.range' 1 (n - 1)) : walId < n := by
  have := List.mem_range'_1.mp h
  omega

theorem walRecords_write_self (s : Lsm) (key : Bytes) (value : Option Bytes) (ts : ℕ) :
    (s.write key value ts).walRecords s.wal.id =
      s.walRecords s.wal.id ++ [.ofWrite key value ts] := by
  simp [walRecords, write, Wal.append]

theorem walRecords_write_of_ne {s : Lsm} {walId : ℕ} (hne : walId ≠ s.wal.id) (key : Bytes)
    (value : Option Bytes) (ts : ℕ) :
    (s.write key value ts).walRecords walId = s.walRecords walId := by
  simp [walRecords, write, Wal.append, hne]

theorem listedRecords_write_of_not_listed {s : Lsm} (hnot : ¬ s.Listed) (key : Bytes)
    (value : Option Bytes) (ts : ℕ) :
    (s.write key value ts).listedRecords = s.listedRecords := by
  refine List.flatMap_congr fun walId hwalId => walRecords_write_of_ne ?_ key value ts
  have hlt : walId < s.manifest.nextWalId := mem_range'_one hwalId
  rintro rfl
  exact hnot hlt

/-- The numbers of the listed logs when the log of the session is the last of them. -/
theorem OnDisk.range'_eq {s : Lsm} (h : s.OnDisk) (hlisted : s.Listed) :
    List.range' 1 (s.manifest.nextWalId - 1) = List.range' 1 (s.wal.id - 1) ++ [s.wal.id] := by
  have hlt : s.wal.id < s.manifest.nextWalId := hlisted
  have hlast : s.manifest.nextWalId - 1 = s.wal.id - 1 + 1 := by
    have := h.wal
    have := h.wal_pos
    omega
  have hid : 1 + (s.wal.id - 1) = s.wal.id := by
    have := h.wal_pos
    omega
  rw [hlast, List.range'_1_concat, hid]

theorem OnDisk.listedRecords_write {s : Lsm} (h : s.OnDisk) (hlisted : s.Listed) (key : Bytes)
    (value : Option Bytes) (ts : ℕ) :
    (s.write key value ts).listedRecords = s.listedRecords ++ [.ofWrite key value ts] := by
  have hwritten : (s.write key value ts).listedRecords =
      (List.range' 1 (s.wal.id - 1) ++ [s.wal.id]).flatMap (s.write key value ts).walRecords := by
    rw [← h.range'_eq hlisted]
    rfl
  have hbefore : s.listedRecords =
      (List.range' 1 (s.wal.id - 1) ++ [s.wal.id]).flatMap s.walRecords := by
    rw [← h.range'_eq hlisted]
    rfl
  have hothers : (List.range' 1 (s.wal.id - 1)).flatMap (s.write key value ts).walRecords =
      (List.range' 1 (s.wal.id - 1)).flatMap s.walRecords := by
    refine List.flatMap_congr fun walId hwalId => walRecords_write_of_ne ?_ key value ts
    exact (mem_range'_one hwalId).ne
  rw [hwritten, hbefore, List.flatMap_append, List.flatMap_append, hothers,
    List.flatMap_singleton, List.flatMap_singleton, walRecords_write_self, List.append_assoc]

theorem walRecords_flushWal (s : Lsm) (walId : ℕ) :
    s.flushWal.walRecords walId = s.walRecords walId := by
  by_cases hwal : walId = s.wal.id
  · subst hwal
    simp [walRecords, flushWal]
  · simp [walRecords, flushWal, hwal]

theorem listedRecords_flushWal (s : Lsm) : s.flushWal.listedRecords = s.listedRecords :=
  List.flatMap_congr fun walId _ => walRecords_flushWal s walId

/-- Making a log lists it, and it has no records yet. -/
theorem OnDisk.listedRecords_switchWal {s : Lsm} (h : s.OnDisk) (hsynced : s.wal.pending = []) :
    s.switchWal.listedRecords = s.listedRecords := by
  have hids : List.range' 1 (s.switchWal.manifest.nextWalId - 1) =
      List.range' 1 (s.manifest.nextWalId - 1) ++ [s.manifest.nextWalId] := by
    have hpos := h.numbered.wal
    have hnext : s.switchWal.manifest.nextWalId - 1 = s.manifest.nextWalId - 1 + 1 := by
      rw [nextWalId_switchWal]
      omega
    have hid : 1 + (s.manifest.nextWalId - 1) = s.manifest.nextWalId := by omega
    rw [hnext, List.range'_1_concat, hid]
  have hnew : s.switchWal.walRecords s.manifest.nextWalId = [] := by
    simp [walRecords, Lsm.switchWal, Wal.create]
  have hold : (List.range' 1 (s.manifest.nextWalId - 1)).flatMap s.switchWal.walRecords =
      s.listedRecords := by
    refine List.flatMap_congr fun walId hwalId => ?_
    have hne : walId ≠ s.manifest.nextWalId := (mem_range'_one hwalId).ne
    simp [walRecords, Lsm.switchWal, Wal.create, hsynced, hne]
  rw [Lsm.listedRecords, hids, List.flatMap_append, List.flatMap_singleton, hnew, List.append_nil,
    hold]

theorem OnDisk.listedRecords_rotate {s : Lsm} (h : s.OnDisk) :
    s.rotate.listedRecords = s.listedRecords := by
  calc s.rotate.listedRecords
      = s.flushWal.switchWal.listedRecords := rfl
    _ = s.flushWal.listedRecords := h.flushWal.listedRecords_switchWal rfl
    _ = s.listedRecords := listedRecords_flushWal s

/-- The memtable after opening is what the listed logs of the directory give. -/
theorem memtable_openDir (memtableSize : ℕ) (dir : Dir) :
    (openDir memtableSize dir).memtable = (openDir memtableSize dir).recovered := by
  have hrecover : (openDir memtableSize dir).memtable =
      recoverMemtable (openDir memtableSize dir).dir
        (openDir memtableSize dir).manifest.nextWalId := rfl
  rw [hrecover, recoverMemtable_eq, recovered]
  refine congrArg (MemTable.replay MemTable.new) (List.flatMap_congr fun walId hwalId => ?_)
  have hne : walId ≠ (openDir memtableSize dir).wal.id := (mem_range'_one hwalId).ne
  rw [walRecords, if_neg hne, List.append_nil]

/-! ## The invariant -/

/-- A write that keeps what a restart restores in step with what is stored now.  If the
log of the session is listed, the write is not older than a listed record of its key;
if it is not, the write is older than some listed record of the key when there is one. -/
def WriteKept (s : Lsm) (key : Bytes) (ts : ℕ) : Prop :=
  (s.Listed → ∀ record ∈ s.listedRecords, record.key = key → record.timestamp ≤ ts) ∧
    (¬ s.Listed → ∀ record ∈ s.listedRecords, record.key = key →
      ∃ newer ∈ s.listedRecords, newer.key = key ∧ ts < newer.timestamp)

instance (s : Lsm) (key : Bytes) (ts : ℕ) : Decidable (s.WriteKept key ts) :=
  inferInstanceAs (Decidable (_ ∧ _))

/-- The newest listed record of a key is its newest value, and the memtable has no
versions but those in the listed logs and the log of the session. -/
structure Durable (s : Lsm) : Prop where
  onDisk : s.OnDisk
  newest : ∀ key value, s.recovered.newest key = some value → s.newest key = value
  memtable : ∀ e ∈ s.memtable.iter,
    ∃ record ∈ s.listedRecords ++ s.walRecords s.wal.id, record.version = e.1
  replayed : ¬ s.Listed → ∀ record ∈ s.listedRecords, ∃ e ∈ s.memtable.iter, e.1 = record.version

theorem OnDisk.walRecords_subset {s : Lsm} (h : s.OnDisk) (hlisted : s.Listed)
    {record : WalRecord} (hrecord : record ∈ s.walRecords s.wal.id) : record ∈ s.listedRecords := by
  refine List.mem_flatMap.mpr ⟨s.wal.id, ?_, hrecord⟩
  rw [h.range'_eq hlisted]
  exact List.mem_append_right _ (List.mem_singleton_self _)

theorem durable_openDir (memtableSize : ℕ) (dir : Dir) : (openDir memtableSize dir).Durable where
  onDisk := onDisk_openDir memtableSize dir
  newest := by
    intro key value hvalue
    rw [Lsm.newest, memtable_openDir, hvalue]
  memtable := by
    intro e he
    rw [memtable_openDir] at he
    obtain ⟨record, hrecord, hversion⟩ := exists_mem_recovered.mp ⟨e, he, rfl⟩
    exact ⟨record, List.mem_append_left _ hrecord, hversion⟩
  replayed := by
    intro _ record hrecord
    rw [memtable_openDir]
    exact exists_mem_recovered.mpr ⟨record, hrecord, rfl⟩

theorem Durable.advance {s : Lsm} (h : s.Durable) (count : ℕ) : (s.advance count).Durable :=
  ⟨h.onDisk.advance count, h.newest, h.memtable, h.replayed⟩

/-- The memtable has no version newer than the listed records of the key, once the log of
the session is listed. -/
theorem Durable.timestamp_le {s : Lsm} (h : s.Durable) (hlisted : s.Listed) {key : Bytes} {ts : ℕ}
    (hle : ∀ record ∈ s.listedRecords, record.key = key → record.timestamp ≤ ts) :
    ∀ e ∈ s.memtable.iter, e.1.data = key → e.1.timestamp ≤ ts := by
  intro e he hkey
  obtain ⟨record, hrecord, hversion⟩ := h.memtable e he
  rw [← hversion] at hkey ⊢
  rcases List.mem_append.mp hrecord with hrecord | hrecord
  · exact hle record hrecord hkey
  · exact hle record (h.onDisk.walRecords_subset hlisted hrecord) hkey

theorem Durable.newest_write {s : Lsm} (h : s.Durable) {key : Bytes} {ts : ℕ}
    (hkept : s.WriteKept key ts) (value : Option Bytes) (key' : Bytes) (value' : Option Bytes)
    (hvalue' : (s.write key value ts).recovered.newest key' = some value') :
    (s.write key value ts).newest key' = value' := by
  by_cases hlisted : s.Listed
  · have hkept := hkept.1 hlisted
    have hrecovered : (s.write key value ts).recovered = s.recovered.record ⟨key, ts⟩ value := by
      rw [recovered, h.onDisk.listedRecords_write hlisted, MemTable.replay_append]
      cases value <;> rfl
    rw [hrecovered] at hvalue'
    by_cases hkey : key = key'
    · subst hkey
      have hle : ∀ e ∈ s.recovered.iter, e.1.data = key → e.1.timestamp ≤ ts := by
        intro e he hdata
        obtain ⟨record, hrecord, hversion⟩ := exists_mem_recovered.mp ⟨e, he, rfl⟩
        rw [← hversion] at hdata ⊢
        exact hkept record hrecord hdata
      have hself : (s.recovered.record ⟨key, ts⟩ value).newest key = some value :=
        MemTable.newest_record_self value hle
      rw [newest_write_self (h.timestamp_le hlisted hkept)]
      exact Option.some.inj (hself.symm.trans hvalue')
    · have hother : (s.recovered.record ⟨key, ts⟩ value).newest key' = s.recovered.newest key' :=
        MemTable.newest_record_of_ne value hkey
      rw [newest_write_of_ne s hkey]
      exact h.newest key' value' (hother.symm.trans hvalue')
  · have hkept := hkept.2 hlisted
    have hrecovered : (s.write key value ts).recovered = s.recovered := by
      rw [recovered, listedRecords_write_of_not_listed hlisted]
      rfl
    rw [hrecovered] at hvalue'
    by_cases hkey : key = key'
    · subst hkey
      -- the key has a listed record, so it has one that is newer than this write
      obtain ⟨ts', hmem, _⟩ := MemTable.newest_eq_some_iff.mp hvalue'
      obtain ⟨record, hrecord, hversion⟩ := exists_mem_recovered.mp ⟨_, hmem, rfl⟩
      have hdata : record.key = key := congrArg Key.data hversion
      obtain ⟨newer, hnewer, hnewerKey, hlt⟩ := hkept record hrecord hdata
      obtain ⟨e, he, heq⟩ := h.replayed hlisted newer hnewer
      rw [newest_write_of_older ⟨e, he, heq ▸ hnewerKey, heq ▸ hlt⟩]
      exact h.newest key value' hvalue'
    · rw [newest_write_of_ne s hkey]
      exact h.newest key' value' hvalue'

theorem listedRecords_subset_write {s : Lsm} (h : s.OnDisk) (key : Bytes) (value : Option Bytes)
    (ts : ℕ) {record : WalRecord} (hrecord : record ∈ s.listedRecords) :
    record ∈ (s.write key value ts).listedRecords := by
  by_cases hlisted : s.Listed
  · rw [h.listedRecords_write hlisted]
    exact List.mem_append_left _ hrecord
  · rw [listedRecords_write_of_not_listed hlisted]
    exact hrecord

theorem Durable.write {s : Lsm} (h : s.Durable) {key : Bytes} {ts : ℕ}
    (hkept : s.WriteKept key ts) (value : Option Bytes) : (s.write key value ts).Durable where
  onDisk := h.onDisk.write key value ts
  newest := h.newest_write hkept value
  memtable := by
    intro e he
    have hself : (s.write key value ts).walRecords (s.write key value ts).wal.id =
        s.walRecords s.wal.id ++ [.ofWrite key value ts] := walRecords_write_self s key value ts
    rw [hself]
    rcases MemTable.mem_iter_record.mp he with rfl | ⟨he, _⟩
    · exact ⟨.ofWrite key value ts, by simp, rfl⟩
    · obtain ⟨record, hrecord, hversion⟩ := h.memtable e he
      refine ⟨record, ?_, hversion⟩
      rcases List.mem_append.mp hrecord with hrecord | hrecord
      · exact List.mem_append_left _ (listedRecords_subset_write h.onDisk key value ts hrecord)
      · exact List.mem_append_right _ (List.mem_append_left _ hrecord)
  replayed := by
    intro hnot record hrecord
    have hnot' : ¬ s.Listed := hnot
    rw [listedRecords_write_of_not_listed hnot'] at hrecord
    obtain ⟨e, he, heq⟩ := h.replayed hnot' record hrecord
    by_cases hkey : e.1 = ⟨key, ts⟩
    · exact ⟨_, MemTable.mem_iter_record.mpr (Or.inl rfl), hkey.symm.trans heq⟩
    · exact ⟨e, MemTable.mem_iter_record.mpr (Or.inr ⟨he, hkey⟩), heq⟩

theorem Durable.flushWal {s : Lsm} (h : s.Durable) : s.flushWal.Durable where
  onDisk := h.onDisk.flushWal
  newest := by
    intro key value hvalue
    rw [recovered, listedRecords_flushWal] at hvalue
    exact h.newest key value hvalue
  memtable := by
    intro e he
    have hself : s.flushWal.walRecords s.flushWal.wal.id = s.walRecords s.wal.id :=
      walRecords_flushWal s s.wal.id
    rw [listedRecords_flushWal, hself]
    exact h.memtable e he
  replayed := by
    intro hnot record hrecord
    rw [listedRecords_flushWal] at hrecord
    exact h.replayed hnot record hrecord

/-- A rotation needs a safe flush only for the keys that a restart restores from a log:
of the others, a restart forgets what the flush forgot. -/
theorem Durable.rotate {s : Lsm} (h : s.Durable)
    (hsafe : ∀ record ∈ s.listedRecords, s.FlushSafe record.key) : s.rotate.Durable where
  onDisk := h.onDisk.rotate
  newest := by
    intro key value hvalue
    rw [recovered, h.onDisk.listedRecords_rotate] at hvalue
    obtain ⟨ts, hmem, _⟩ := MemTable.newest_eq_some_iff.mp hvalue
    obtain ⟨record, hrecord, hversion⟩ := exists_mem_recovered.mp ⟨_, hmem, rfl⟩
    have hkey : record.key = key := congrArg Key.data hversion
    have hflush : s.FlushSafe key := hkey ▸ hsafe record hrecord
    rw [newest_rotate h.onDisk.immutableMemtables hflush]
    exact h.newest key value hvalue
  memtable := by
    intro e he
    exact absurd he List.not_mem_nil
  replayed := by
    intro hnot
    have hnext : s.rotate.manifest.nextWalId = s.manifest.nextWalId + 1 := nextWalId_switchWal s
    have hlisted : s.rotate.Listed := by
      rw [Listed, hnext]
      exact Nat.lt_succ_self _
    exact absurd hlisted hnot

/-! ## Runs over several sessions -/

/-- One write of a batch, with its timestamp. -/
def writeStep (s : Lsm) (op : BatchOperation × ℕ) : Lsm := s.write op.1.key op.1.effect op.2

theorem writes_eq_run (s : Lsm) (ts : ℕ) (operations : List BatchOperation) :
    s.writes ts operations = run writeStep s (operations.zipIdx ts) := by
  induction operations generalizing s ts with
  | nil => rfl
  | cons op rest ih => rw [writes, ih, List.zipIdx_cons, run_cons, writeStep]

/-- A step that keeps `Durable`: each write of an operation is `WriteKept`, and a rotation
is safe for the keys with a listed record. -/
structure KeptStep (s : Lsm) (op : Op) : Prop where
  writes : Along writeStep (fun s op => s.WriteKept op.1.key op.2)
    (s.advance op.operations.length) (op.operations.zipIdx s.nextTs)
  flush : s.Rotates op →
    ∀ record ∈ (s.logged op).listedRecords, (s.logged op).FlushSafe record.key

instance (s : Lsm) (op : Op) : Decidable (s.KeptStep op) :=
  decidable_of_iff (Along writeStep (fun s op => s.WriteKept op.1.key op.2)
      (s.advance op.operations.length) (op.operations.zipIdx s.nextTs) ∧
    (s.Rotates op → ∀ record ∈ (s.logged op).listedRecords, (s.logged op).FlushSafe record.key))
    ⟨fun h => ⟨h.1, h.2⟩, fun h => ⟨h.1, h.2⟩⟩

/-- Syncing and reopening need nothing. -/
def KeptSession (s : Lsm) : SessionOp → Prop
  | .op op => s.KeptStep op
  | _ => True

instance (s : Lsm) : ∀ op, Decidable (s.KeptSession op)
  | .op op => inferInstanceAs (Decidable (s.KeptStep op))
  | .sync => inferInstanceAs (Decidable True)
  | .reopen _ _ => inferInstanceAs (Decidable True)

theorem Durable.step {s : Lsm} {op : Op} (h : s.Durable) (hkept : s.KeptStep op) :
    (s.step op).Durable := by
  have hlogged : (s.logged op).Durable := by
    rw [logged, writes_eq_run]
    refine hkept.writes.invariant Durable ?_ (h.advance _)
    intro s op hs hwrite
    exact hs.write hwrite op.1.effect
  rw [step_eq]
  split
  · next hrotates =>
      exact hlogged.rotate (hkept.flush hrotates)
  · exact hlogged

/-- After a sync it does not matter how much of the log buffer survives. -/
theorem endSession_flushWal (s : Lsm) (survive : ℕ) :
    (s.flushWal.endSession survive).wals = s.flushWal.dir.wals := by
  have hfile : (s.flushWal.dir.wals s.flushWal.wal.id).getD [] ++
      s.flushWal.wal.pending.take survive = (s.dir.wals s.wal.id).getD [] ++ s.wal.pending := by
    simp [flushWal]
  rw [endSession, hfile]
  exact Function.update_idem _ _ _

theorem OnDisk.recovered_reopen {s : Lsm} (h : s.OnDisk) (survive memtableSize : ℕ) :
    (openDir memtableSize (s.flushWal.endSession survive)).memtable = s.recovered := by
  obtain ⟨lines, hlines, hload⟩ := h.manifest
  have hlines' : (s.flushWal.endSession survive).manifest = some lines := hlines
  rw [memtable_openDir, recovered, recovered]
  refine congrArg (MemTable.replay MemTable.new) ?_
  have hnext : (openDir memtableSize (s.flushWal.endSession survive)).manifest.nextWalId =
      s.manifest.nextWalId := by
    rw [openDir, hlines', hload]
  rw [← listedRecords_flushWal s, listedRecords, listedRecords, hnext]
  refine List.flatMap_congr fun walId hwalId => ?_
  have hid : (openDir memtableSize (s.flushWal.endSession survive)).wal.id =
      s.manifest.nextWalId := by
    rw [← hnext]
    rfl
  have hne : walId ≠ (openDir memtableSize (s.flushWal.endSession survive)).wal.id := by
    rw [hid]
    exact (mem_range'_one hwalId).ne
  have hfile : (openDir memtableSize (s.flushWal.endSession survive)).dir.wals walId =
      s.flushWal.dir.wals walId := by
    rw [← endSession_flushWal s survive]
    exact Function.update_of_ne hne _ _
  have hpending : s.flushWal.wal.pending = [] := rfl
  rw [walRecords, walRecords, if_neg hne, hfile, hpending, ite_self]

theorem OnDisk.levels_reopen {s : Lsm} (h : s.OnDisk) (survive memtableSize : ℕ) :
    (openDir memtableSize (s.flushWal.endSession survive)).levels = s.levels := by
  obtain ⟨lines, hlines, hload⟩ := h.manifest
  have hlines' : (s.flushWal.endSession survive).manifest = some lines := hlines
  funext level
  rw [h.levels level, hload, openDir, hlines']
  rfl

end Lsm
end Crabstash

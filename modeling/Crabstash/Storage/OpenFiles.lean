import Crabstash.Storage.Lockstep
import Crabstash.Storage.Scan

/-!
# Open files

A table is read in two ways.  `SSTable::get` goes through the handle that was opened with
the table, and a handle outlives the name of its file; an iterator opens the file again, by
its name, when it is made and whenever it needs a block.  `File::create` under a name that
is taken truncates the file that has it, for every handle on it.

So a file is known by the write that its bytes are from, its version.  A name leads to one
version at a time, and the contents of a version are lost when its file is truncated
(`Files`).  What a read gets from a file with other bytes in it is a parameter, `misread`:
the theorems hold whatever that is.

The block cache is not part of this: it holds blocks that were read in one of these ways.
-/

namespace Crabstash

open StorageIterator

/-- The write that the bytes of a file are from: that of the table with this number which
the Lsm has in its levels, or one of the compactions. -/
inductive FileVersion where
  | ofLsm (id : ℕ)
  | ofCompaction (n : ℕ)
  deriving DecidableEq, Repr

/-- The names of the table files, and what each version holds as long as it is there. -/
structure Files where
  names : ℕ → Option FileVersion
  contents : FileVersion → Option SSTable

namespace Files

/-- A table written under a number.  A file of that name is truncated. -/
def write (files : Files) (id : ℕ) (version : FileVersion) (sst : SSTable) : Files where
  names := Function.update files.names id (some version)
  contents := fun v =>
    if v = version then some sst
    else if files.names id = some v then none
    else files.contents v

/-- `remove_file`. -/
def unlink (files : Files) (id : ℕ) : Files :=
  { files with names := Function.update files.names id none }

/-- `SSTable::open_with_cache`. -/
def openTable (files : Files) (id : ℕ) : Except Error (FileVersion × SSTable) :=
  match files.names id with
  | none => .error .io
  | some version =>
      match files.contents version with
      | none => .error .io
      | some sst => .ok (version, { sst with id })

section Reads

variable (files : Files) (misread : SSTable → ℕ → Except Error (List Entry))

/-- `read_block_from_disk`: a block at its place in an open file. -/
def readBlockFromDisk (version : FileVersion) (sst : SSTable) (idx : ℕ) :
    Except Error (List Entry) :=
  match files.contents version with
  | some sst => .ok (sst.readBlock idx)
  | none => misread sst idx

/-- `read_block_cached`: a block from the file that has the name of the table now. -/
def readBlockCached (version : FileVersion) (sst : SSTable) (idx : ℕ) :
    Except Error (List Entry) :=
  match files.names sst.id with
  | none => .error .io
  | some found =>
      if found = version then files.readBlockFromDisk misread version sst idx
      else misread sst idx

/-- `SSTable::get` through the handle of the table. -/
def get (version : FileVersion) (sst : SSTable) (key : Bytes) : Except Error (Option Bytes) :=
  if !sst.bloom.mayContain key then .ok none
  else
    let blockIdx := sst.findBlock key
    if sst.blockMetas.length ≤ blockIdx then .ok none
    else (files.readBlockFromDisk misread version sst blockIdx).map (SSTable.searchBlock key)

end Reads

/-- The name of the table leads to the version, and the version holds the table. -/
structure HasFile (files : Files) (version : FileVersion) (sst : SSTable) : Prop where
  name : files.names sst.id = some version
  content : files.contents version = some sst

instance (files : Files) (version : FileVersion) (sst : SSTable) :
    Decidable (files.HasFile version sst) :=
  decidable_of_iff (files.names sst.id = some version ∧ files.contents version = some sst)
    ⟨fun h => ⟨h.1, h.2⟩, fun h => ⟨h.name, h.content⟩⟩

section Reads

variable {files : Files} {misread : SSTable → ℕ → Except Error (List Entry)}
  {version : FileVersion} {sst : SSTable}

theorem openTable_eq (h : files.HasFile version sst) :
    files.openTable sst.id = .ok (version, sst) := by
  unfold openTable
  rw [h.name]
  simp only [h.content]

theorem readBlockCached_eq (h : files.HasFile version sst) (idx : ℕ) :
    files.readBlockCached misread version sst idx = .ok (sst.readBlock idx) := by
  unfold readBlockCached readBlockFromDisk
  rw [h.name]
  simp only [if_true, h.content]

theorem get_eq (h : files.contents version = some sst) (key : Bytes) :
    files.get misread version sst key = .ok (sst.get key) := by
  unfold get SSTable.get readBlockFromDisk
  split
  · rfl
  · simp only [h]
    split <;> rfl

theorem hasFile_write (files : Files) (version : FileVersion) (sst : SSTable) :
    (files.write sst.id version sst).HasFile version sst where
  name := Function.update_self ..
  content := if_pos rfl

/-- A table keeps its file when another is written under another number. -/
theorem HasFile.write (h : files.HasFile version sst) {id : ℕ} {version' : FileVersion}
    (hversion : version ≠ version') (hid : sst.id ≠ id) (hname : files.names id ≠ some version)
    (sst' : SSTable) : (files.write id version' sst').HasFile version sst where
  name := by
    show Function.update files.names id (some version') sst.id = _
    rw [Function.update_of_ne hid]
    exact h.name
  content := by
    show (if version = version' then _ else if files.names id = some version then _
      else files.contents version) = _
    rw [if_neg hversion, if_neg hname]
    exact h.content

end Reads
end Files

/-! ## Iterators that load their blocks -/

/-- What loading a block gives: the version the iterator was opened on, the table, the index
of the block. -/
abbrev BlockSource := FileVersion → SSTable → ℕ → Except Error (List Entry)

/-- An iterator over a table together with the version it was opened on. -/
structure TableIterator where
  it : SSTableIterator
  version : FileVersion

namespace TableIterator

section

variable (load : BlockSource)

/-- `load_block` through the open file; it fails where the read does. -/
def loadBlock (t : TableIterator) (idx : ℕ) : Except Error TableIterator :=
  if t.it.table.blockMetas.length ≤ idx then .ok { t with it := { t.it with valid := false } }
  else
    (load t.version t.it.table idx).map fun block =>
      { t with it := { t.it with blockData := block, blockIdx := idx } }

/-- The next entry of the block that is loaded. -/
def takeEntry (t : TableIterator) : TableIterator := { t with it := t.it.takeEntry }

/-- `parse_entry`. -/
def parseEntry (t : TableIterator) : Except Error TableIterator :=
  if t.it.blockData.isEmpty then
    if t.it.table.blockMetas.length ≤ t.it.blockIdx + 1 then
      .ok { t with it := { t.it with valid := false } }
    else (t.loadBlock load (t.it.blockIdx + 1)).map takeEntry
  else .ok t.takeEntry

/-- `SSTableIterator::new`. -/
def new (table : SSTable) (version : FileVersion) : Except Error TableIterator := do
  let it : SSTableIterator :=
    { table, blockIdx := 0, blockData := [], currentKey := ⟨[], 0⟩, currentValue := none
      valid := false }
  let t ← loadBlock load { it, version } 0
  t.parseEntry load

/-- The loop of `seek`. -/
def skipBelow (target : Bytes) : ℕ → TableIterator → Except Error TableIterator
  | 0, t => .ok t
  | fuel + 1, t =>
      if t.it.valid ∧ t.it.currentKey.data < target then
        (t.parseEntry load).bind (skipBelow target fuel)
      else .ok t

/-- `seek`. -/
def seek (t : TableIterator) (target : Bytes) : Except Error TableIterator := do
  let blockIdx :=
    match BinarySearch.binarySearchBy t.it.table.blockMetas fun block =>
        cmp block.firstKey target with
    | .ok idx => idx
    | .error idx => idx - 1
  let t ← loadBlock load { t with it := { t.it with blockIdx } } blockIdx
  let t ← t.parseEntry load
  t.skipBelow load target (remaining t.it)

end

/-- The iterators while blocks come from `load`. -/
def From (_load : BlockSource) := TableIterator

instance (load : BlockSource) : StorageIterator (From load) where
  key := fun t : TableIterator => t.it.currentKey
  value := fun t : TableIterator => t.it.currentValue
  isValid := fun t : TableIterator => t.it.valid
  next := fun t : TableIterator =>
    match t.parseEntry load with
    | .ok t' => (.ok (), t')
    | .error e => (.error e, t)
  remaining := fun t : TableIterator => remaining t.it

/-! ## When the blocks are there -/

section

variable {load : BlockSource}

/-- From the block with this index on, loading gives the blocks of the table. -/
def LoadsFrom (load : BlockSource) (version : FileVersion) (table : SSTable) (start : ℕ) : Prop :=
  ∀ idx, start ≤ idx → idx < table.blockMetas.length →
    load version table idx = .ok (table.readBlock idx)

theorem loadBlock_eq {t : TableIterator} {start idx : ℕ}
    (hloads : LoadsFrom load t.version t.it.table start) (hidx : start ≤ idx) :
    t.loadBlock load idx = .ok { t with it := t.it.loadBlock idx } := by
  unfold loadBlock SSTableIterator.loadBlock
  split
  · rfl
  · next hin =>
      rw [hloads idx hidx (not_le.mp hin)]
      rfl

theorem parseEntry_eq {t : TableIterator}
    (hloads : LoadsFrom load t.version t.it.table (t.it.blockIdx + 1)) :
    t.parseEntry load = .ok { t with it := t.it.parseEntry } := by
  unfold parseEntry SSTableIterator.parseEntry
  split
  · split
    · rfl
    · rw [loadBlock_eq hloads le_rfl]
      rfl
  · rfl

end
end TableIterator

namespace SSTableIterator

@[simp] theorem blockIdx_takeEntry (it : SSTableIterator) :
    it.takeEntry.blockIdx = it.blockIdx := by
  unfold takeEntry
  split <;> rfl

theorem blockIdx_le_parseEntry (it : SSTableIterator) : it.blockIdx ≤ it.parseEntry.blockIdx := by
  unfold parseEntry
  split
  · split
    · exact le_rfl
    · next hmore =>
        rw [blockIdx_takeEntry, loadBlock, if_neg hmore]
        exact Nat.le_succ _
  · exact (blockIdx_takeEntry it).ge

@[simp] theorem table_skipBelow (target : Bytes) (fuel : ℕ) (it : SSTableIterator) :
    (it.skipBelow target fuel).table = it.table := by
  induction fuel generalizing it with
  | zero => rfl
  | succ fuel ih =>
      rw [skipBelow]
      split
      · rw [ih, table_parseEntry]
      · rfl

end SSTableIterator

namespace TableIterator

variable {load : BlockSource}

theorem LoadsFrom.mono {version : FileVersion} {table : SSTable} {start start' : ℕ}
    (h : LoadsFrom load version table start) (hle : start ≤ start') :
    LoadsFrom load version table start' :=
  fun idx hidx hin => h idx (hle.trans hidx) hin

theorem new_eq {table : SSTable} {version : FileVersion}
    (hloads : LoadsFrom load version table 0) :
    new load table version = .ok ⟨SSTableIterator.new table, version⟩ := by
  let start : SSTableIterator :=
    { table, blockIdx := 0, blockData := [], currentKey := ⟨[], 0⟩, currentValue := none
      valid := false }
  have hfirst : loadBlock load ⟨start, version⟩ 0 = .ok ⟨start.loadBlock 0, version⟩ :=
    loadBlock_eq hloads le_rfl
  have htable : (start.loadBlock 0).table = table := SSTableIterator.table_loadBlock start 0
  have hparse : parseEntry load ⟨start.loadBlock 0, version⟩ =
      .ok ⟨(start.loadBlock 0).parseEntry, version⟩ := by
    apply parseEntry_eq
    rw [htable]
    exact hloads.mono (Nat.zero_le _)
  show (loadBlock load ⟨start, version⟩ 0).bind (parseEntry load) = _
  rw [hfirst]
  exact hparse

theorem skipBelow_eq {t : TableIterator} (hloads : LoadsFrom load t.version t.it.table 0)
    (target : Bytes) (fuel : ℕ) :
    t.skipBelow load target fuel = .ok { t with it := t.it.skipBelow target fuel } := by
  induction fuel generalizing t with
  | zero => rfl
  | succ fuel ih =>
      rw [skipBelow, SSTableIterator.skipBelow]
      split
      · rw [parseEntry_eq (hloads.mono (Nat.zero_le _))]
        have hmoved : LoadsFrom load t.version t.it.parseEntry.table 0 := by
          rw [SSTableIterator.table_parseEntry]
          exact hloads
        exact ih hmoved
      · rfl

theorem seek_eq {t : TableIterator} (hloads : LoadsFrom load t.version t.it.table 0)
    (target : Bytes) : t.seek load target = .ok { t with it := t.it.seek target } := by
  unfold seek SSTableIterator.seek
  set blockIdx :=
    match BinarySearch.binarySearchBy t.it.table.blockMetas fun block =>
        cmp block.firstKey target with
    | .ok idx => idx
    | .error idx => idx - 1 with hblockIdx
  let moved : SSTableIterator := { t.it with blockIdx }
  have htable : (moved.loadBlock blockIdx).table = t.it.table :=
    SSTableIterator.table_loadBlock moved blockIdx
  have hload : loadBlock load ⟨moved, t.version⟩ blockIdx =
      .ok ⟨moved.loadBlock blockIdx, t.version⟩ := loadBlock_eq hloads (Nat.zero_le _)
  have hparse : parseEntry load ⟨moved.loadBlock blockIdx, t.version⟩ =
      .ok ⟨(moved.loadBlock blockIdx).parseEntry, t.version⟩ := by
    apply parseEntry_eq
    rw [htable]
    exact hloads.mono (Nat.zero_le _)
  have hskip : skipBelow load target (remaining (moved.loadBlock blockIdx).parseEntry)
      ⟨(moved.loadBlock blockIdx).parseEntry, t.version⟩ =
      .ok ⟨(moved.loadBlock blockIdx).parseEntry.skipBelow target
        (remaining (moved.loadBlock blockIdx).parseEntry), t.version⟩ := by
    apply skipBelow_eq
    rw [SSTableIterator.table_parseEntry, htable]
    exact hloads
  show (loadBlock load ⟨moved, t.version⟩ blockIdx).bind (fun t =>
    (parseEntry load t).bind fun t => skipBelow load target (remaining t.it) t) = _
  rw [hload]
  show (parseEntry load ⟨moved.loadBlock blockIdx, t.version⟩).bind (fun t =>
    skipBelow load target (remaining t.it) t) = _
  rw [hparse]
  exact hskip

/-! ## In step with the iterator over the table itself -/

/-- The iterator is where the other one is, in a table and a version that `K` holds of. -/
structure Follows (K : FileVersion → SSTable → Prop) (t : TableIterator) (it : SSTableIterator) :
    Prop where
  it_eq : t.it = it
  keeps : K t.version t.it.table

/-- And the blocks to come can be loaded. -/
structure FollowsFrom (load : BlockSource) (K : FileVersion → SSTable → Prop)
    (t : From load) (it : SSTableIterator) : Prop where
  follows : Follows K t it
  loads : LoadsFrom load (TableIterator.version t) it.table (it.blockIdx + 1)

theorem lockstep (load : BlockSource) (K : FileVersion → SSTable → Prop) :
    Lockstep (FollowsFrom load K) where
  key_eq := fun h => congrArg SSTableIterator.currentKey h.follows.it_eq
  value_eq := fun h => congrArg SSTableIterator.currentValue h.follows.it_eq
  isValid_eq := fun h => congrArg SSTableIterator.valid h.follows.it_eq
  remaining_eq := fun h => congrArg remaining h.follows.it_eq
  next_eq := by
    rintro ⟨it, version⟩ _ ⟨⟨rfl, hkeeps⟩, hloads⟩
    have hparse : parseEntry load ⟨it, version⟩ = .ok ⟨it.parseEntry, version⟩ :=
      parseEntry_eq hloads
    refine ⟨⟨it.parseEntry, version⟩, it.parseEntry, ?_, rfl, ⟨rfl, ?_⟩, ?_⟩
    · simp only [next, hparse]
    · rw [SSTableIterator.table_parseEntry]
      exact hkeeps
    · rw [SSTableIterator.table_parseEntry]
      exact hloads.mono (Nat.succ_le_succ (SSTableIterator.blockIdx_le_parseEntry it))

end TableIterator
end Crabstash

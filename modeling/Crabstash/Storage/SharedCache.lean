import Crabstash.Foundations.HashMap
import Crabstash.Foundations.Run
import Crabstash.Storage.OpenFiles

/-!
# One cache for all tables

All tables of an Lsm share one cache of blocks.  A block is found there by the number of its
table and its index; the cache does not know from which file the block was read.  Whoever
misses reads the block from the disk and puts it into the cache later, and in the meantime
anything can happen: the cache evicts what it likes, tables are written, opened, dropped and
removed.

The cache is right as long as no number is given to a second table while the Lsm is open
(`NewNumber`).  Then what is in the cache, or on its way into it, are blocks of the table with
this number (`Coherent`), and a table answers every key as if it were read from its own file.
For an iterator, which opens the file by its name, the cache can only help: it may still have
blocks of a file that has been removed.

Numbers do come twice when a flush and a compaction count apart from each other, and then a
table answers with blocks of the other one.
-/

namespace Crabstash

/-- `BlockCacheKey`: the number of a table, not its file. -/
structure BlockCacheKey where
  sstId : ℕ
  blockIdx : ℕ
  deriving DecidableEq, Repr

/-- `BlockCache`, without its capacity: which blocks go, and when, is left open. -/
abbrev SharedCache := HashMap BlockCacheKey (List Entry)

namespace SharedCache

/-- `get`. -/
def get (cache : SharedCache) (key : BlockCacheKey) : Option (List Entry) := cache.lookup key

end SharedCache

/-! ## An Lsm and its tables -/

/-- An open table: the version its handle is on, and its metadata. -/
abbrev OpenTable := FileVersion × SSTable

/-- The files and the cache of an open Lsm; the tables that are open, and the blocks that have
been read from the disk and are not in the cache yet.  An observer writes down which tables
have been written or opened, by their numbers, and how many files have been written. -/
structure OpenTables where
  files : Files
  cache : SharedCache
  opened : List OpenTable
  inFlight : List (BlockCacheKey × List Entry)
  tables : HashMap ℕ SSTable
  writes : ℕ

/-- A read is a look into the cache and, if that fails, `readFromDisk` or `readByName` and
`fill`. -/
inductive TableStep where
  | write (sst : SSTable)
  | removeFile (id : ℕ)
  | openTable (id : ℕ)
  | closeTable (n : ℕ)
  | readFromDisk (n idx : ℕ)
  | readByName (n idx : ℕ)
  | fill (n : ℕ)
  | evict (key : BlockCacheKey)
  | reopen
  deriving DecidableEq, Repr

namespace OpenTables

/-- No file has been written and no table opened. -/
def init : OpenTables :=
  { files := { names := fun _ => none, contents := fun _ => none }
    cache := ∅, opened := [], inFlight := [], tables := ∅, writes := 0 }

section Reads

variable (misread : SSTable → ℕ → Except Error (List Entry)) (s : OpenTables) (t : OpenTable)

/-- `read_block`. -/
def readBlock (idx : ℕ) : Except Error (List Entry) :=
  match s.cache.get ⟨t.2.id, idx⟩ with
  | some block => .ok block
  | none => s.files.readBlockFromDisk misread t.1 t.2 idx

/-- `read_block_cached`. -/
def readBlockCached (idx : ℕ) : Except Error (List Entry) :=
  match s.cache.get ⟨t.2.id, idx⟩ with
  | some block => .ok block
  | none => s.files.readBlockCached misread t.1 t.2 idx

/-- `SSTable::get`. -/
def get (key : Bytes) : Except Error (Option Bytes) :=
  if !t.2.bloom.mayContain key then .ok none
  else
    let blockIdx := t.2.findBlock key
    if t.2.blockMetas.length ≤ blockIdx then .ok none
    else (s.readBlock misread t blockIdx).map (SSTable.searchBlock key)

/-- Where the blocks of an iterator come from. -/
def source : BlockSource := fun version sst idx => s.readBlockCached misread (version, sst) idx

end Reads

/-- A block has been read for the cache. -/
def fetched (s : OpenTables) (t : OpenTable) (idx : ℕ) :
    Except Error (List Entry) → OpenTables
  | .ok block => { s with inFlight := s.inFlight ++ [(⟨t.2.id, idx⟩, block)] }
  | .error _ => s

/-- A step on the files, the open tables and the cache. -/
def step (misread : SSTable → ℕ → Except Error (List Entry)) (s : OpenTables) :
    TableStep → OpenTables
  | .write sst =>
      { s with
        files := s.files.write sst.id (.ofCompaction s.writes) sst
        tables := s.tables.insert sst.id sst
        writes := s.writes + 1 }
  | .removeFile id => { s with files := s.files.unlink id }
  | .openTable id =>
      match s.files.openTable id with
      | .error _ => s
      | .ok t => { s with opened := s.opened ++ [t], tables := s.tables.insert id t.2 }
  | .closeTable n => { s with opened := s.opened.eraseIdx n }
  | .readFromDisk n idx =>
      match s.opened[n]? with
      | none => s
      | some t => s.fetched t idx (s.files.readBlockFromDisk misread t.1 t.2 idx)
  | .readByName n idx =>
      match s.opened[n]? with
      | none => s
      | some t => s.fetched t idx (s.files.readBlockCached misread t.1 t.2 idx)
  | .fill n =>
      match s.inFlight[n]? with
      | none => s
      | some (key, block) =>
          { s with cache := s.cache.insert key block, inFlight := s.inFlight.eraseIdx n }
  | .evict key => { s with cache := s.cache.erase key }
  -- the cache and the handles go with the process
  | .reopen => { s with cache := ∅, opened := [], inFlight := [], tables := ∅ }

/-- A table that is written gets a number that no table of the Lsm has had since it was
opened. -/
def NewNumber (s : OpenTables) : TableStep → Prop
  | .write sst => s.tables.lookup sst.id = none
  | _ => True

instance (s : OpenTables) (action : TableStep) : Decidable (s.NewNumber action) :=
  match action with
  | .write sst => inferInstanceAs (Decidable (s.tables.lookup sst.id = none))
  | .removeFile _ => inferInstanceAs (Decidable True)
  | .openTable _ => inferInstanceAs (Decidable True)
  | .closeTable _ => inferInstanceAs (Decidable True)
  | .readFromDisk _ _ => inferInstanceAs (Decidable True)
  | .readByName _ _ => inferInstanceAs (Decidable True)
  | .fill _ => inferInstanceAs (Decidable True)
  | .evict _ => inferInstanceAs (Decidable True)
  | .reopen => inferInstanceAs (Decidable True)

/-! ## The invariant -/

/-- The block is one of the table that has the number. -/
def IsBlock (s : OpenTables) (key : BlockCacheKey) (block : List Entry) : Prop :=
  ∃ sst, s.tables.lookup key.sstId = some sst ∧ block = sst.readBlock key.blockIdx

/-- A name leads to a table with this number, and it is the one that the observer knows. -/
structure Coherent (s : OpenTables) : Prop where
  written : ∀ version sst, s.files.contents version = some sst →
    ∃ n < s.writes, version = .ofCompaction n
  named : ∀ id version, s.files.names id = some version →
    ∃ sst, s.files.contents version = some sst ∧ sst.id = id
  known : ∀ id version sst, s.files.names id = some version → s.tables.lookup id = some sst →
    s.files.contents version = some sst
  opened : ∀ t ∈ s.opened, s.files.contents t.1 = some t.2 ∧ s.tables.lookup t.2.id = some t.2
  named_opened : ∀ t ∈ s.opened, ∀ version, s.files.names t.2.id = some version → version = t.1
  cached : ∀ key block, s.cache.get key = some block → s.IsBlock key block
  inFlight : ∀ e ∈ s.inFlight, s.IsBlock e.1 e.2

theorem coherent_init : init.Coherent where
  written := nofun
  named := nofun
  known := nofun
  opened := nofun
  named_opened := nofun
  cached := nofun
  inFlight := nofun

section

variable {misread : SSTable → ℕ → Except Error (List Entry)} {s : OpenTables}

/-- A table that is open has its block in the cache, if there is one. -/
theorem Coherent.block_eq (h : s.Coherent) {t : OpenTable} (ht : t ∈ s.opened) {idx : ℕ}
    {block : List Entry} (hget : s.cache.get ⟨t.2.id, idx⟩ = some block) :
    block = t.2.readBlock idx := by
  obtain ⟨sst, hlookup, hblock⟩ := h.cached _ _ hget
  rw [(h.opened t ht).2] at hlookup
  obtain rfl := Option.some.inj hlookup
  exact hblock

theorem Coherent.readBlockFromDisk (h : s.Coherent) {t : OpenTable} (ht : t ∈ s.opened)
    (idx : ℕ) : s.files.readBlockFromDisk misread t.1 t.2 idx = .ok (t.2.readBlock idx) := by
  rw [Files.readBlockFromDisk, (h.opened t ht).1]

/-- By its name the table is found as long as it has one. -/
theorem Coherent.readByName (h : s.Coherent) {t : OpenTable} (ht : t ∈ s.opened) (idx : ℕ) :
    s.files.readBlockCached misread t.1 t.2 idx =
      if (s.files.names t.2.id).isSome then .ok (t.2.readBlock idx) else .error .io := by
  rw [Files.readBlockCached]
  cases hname : s.files.names t.2.id with
  | none => rfl
  | some version =>
      obtain rfl := h.named_opened t ht version hname
      simp only [if_true, h.readBlockFromDisk ht, Option.isSome_some]

/-! ## One step -/

theorem IsBlock.insert {key : BlockCacheKey} {block : List Entry} (h : s.IsBlock key block)
    {id : ℕ} {sst : SSTable} {s' : OpenTables} (htables : s'.tables = s.tables.insert id sst)
    (hsame : ∀ sst', s.tables.lookup id = some sst' → sst' = sst) : s'.IsBlock key block := by
  obtain ⟨sst', hlookup, hblock⟩ := h
  refine ⟨sst', ?_, hblock⟩
  rw [htables]
  by_cases heq : key.sstId = id
  · rw [heq] at hlookup ⊢
    rw [AList.lookup_insert, hsame sst' hlookup]
  · rwa [AList.lookup_insert_ne heq]

/-- A table with a new number is written to a new file; the file that has lost its name to it,
if there is one, is not open. -/
theorem Coherent.write (h : s.Coherent) {sst : SSTable} (hnew : s.tables.lookup sst.id = none) :
    (s.step misread (.write sst)).Coherent := by
  have hversion : ∀ version sst', s.files.contents version = some sst' →
      version ≠ .ofCompaction s.writes := by
    rintro version sst' hcontents rfl
    obtain ⟨n, hn, heq⟩ := h.written _ sst' hcontents
    obtain rfl := FileVersion.ofCompaction.inj heq
    exact lt_irrefl _ hn
  have hnone : ∀ sst', s.tables.lookup sst.id = some sst' → sst' = sst := by
    intro sst' hlookup
    rw [hnew] at hlookup
    contradiction
  have hself : (s.step misread (.write sst)).files.contents (.ofCompaction s.writes) = some sst :=
    if_pos rfl
  have hnameSelf : (s.step misread (.write sst)).files.names sst.id =
      some (.ofCompaction s.writes) := Function.update_self ..
  have hnameOther : ∀ {id}, id ≠ sst.id →
      (s.step misread (.write sst)).files.names id = s.files.names id :=
    fun hne => Function.update_of_ne hne _ _
  -- the contents of a file whose table has another number
  have hkept : ∀ {version sst'}, s.files.contents version = some sst' → sst'.id ≠ sst.id →
      (s.step misread (.write sst)).files.contents version = some sst' := by
    intro version sst' hcontents hne
    have hname : s.files.names sst.id ≠ some version := by
      intro hname
      obtain ⟨sst'', hcontents', hid⟩ := h.named _ _ hname
      rw [hcontents] at hcontents'
      exact hne (Option.some.inj hcontents' ▸ hid)
    show (if version = .ofCompaction s.writes then some sst
      else if s.files.names sst.id = some version then none else s.files.contents version) = _
    rw [if_neg (hversion version sst' hcontents), if_neg hname]
    exact hcontents
  have hopened : ∀ t ∈ s.opened, t.2.id ≠ sst.id := by
    intro t ht heq
    have hlookup := (h.opened t ht).2
    rw [heq, hnew] at hlookup
    contradiction
  refine ⟨?_, ?_, ?_, ?_, ?_, ?_, ?_⟩
  · intro version sst' hcontents
    by_cases heq : version = .ofCompaction s.writes
    · exact ⟨s.writes, Nat.lt_succ_self _, heq⟩
    · have hcontents : (if version = .ofCompaction s.writes then some sst
          else if s.files.names sst.id = some version then none
          else s.files.contents version) = some sst' := hcontents
      rw [if_neg heq] at hcontents
      split at hcontents
      · contradiction
      · obtain ⟨n, hn, hversion⟩ := h.written version sst' hcontents
        exact ⟨n, hn.trans (Nat.lt_succ_self _), hversion⟩
  · intro id version hname
    by_cases heq : id = sst.id
    · rw [heq, hnameSelf] at hname
      obtain rfl := Option.some.inj hname
      exact ⟨sst, hself, heq.symm⟩
    · rw [hnameOther heq] at hname
      obtain ⟨sst', hcontents, hid⟩ := h.named id version hname
      exact ⟨sst', hkept hcontents fun heq' => heq (hid.symm.trans heq'), hid⟩
  · intro id version sst' hname hlookup
    have hlookup : (s.tables.insert sst.id sst).lookup id = some sst' := hlookup
    by_cases heq : id = sst.id
    · rw [heq, hnameSelf] at hname
      rw [heq, AList.lookup_insert] at hlookup
      rw [← Option.some.inj hname, ← Option.some.inj hlookup]
      exact hself
    · rw [hnameOther heq] at hname
      rw [AList.lookup_insert_ne heq] at hlookup
      have hcontents := h.known id version sst' hname hlookup
      obtain ⟨sst'', hcontents', hid⟩ := h.named id version hname
      rw [hcontents] at hcontents'
      obtain rfl := Option.some.inj hcontents'
      exact hkept hcontents fun heq' => heq (hid.symm.trans heq')
  · intro t ht
    obtain ⟨hcontents, hlookup⟩ := h.opened t ht
    exact ⟨hkept hcontents (hopened t ht), (AList.lookup_insert_ne (hopened t ht)).trans hlookup⟩
  · intro t ht version hname
    rw [hnameOther (hopened t ht)] at hname
    exact h.named_opened t ht version hname
  · exact fun key block hget => (h.cached key block hget).insert rfl hnone
  · exact fun e he => (h.inFlight e he).insert rfl hnone

theorem Coherent.unlink (h : s.Coherent) (id : ℕ) :
    (s.step misread (.removeFile id)).Coherent := by
  have hname : ∀ {id' version}, (s.files.unlink id).names id' = some version →
      s.files.names id' = some version := by
    intro id' version hname
    have hname : Function.update s.files.names id none id' = some version := hname
    by_cases heq : id' = id
    · rw [heq, Function.update_self] at hname
      contradiction
    · rwa [Function.update_of_ne heq] at hname
  exact { h with
    named := fun id' version h' => h.named id' version (hname h')
    known := fun id' version sst h' => h.known id' version sst (hname h')
    named_opened := fun t ht version h' => h.named_opened t ht version (hname h') }

/-- The table that is opened is the one that has the number. -/
theorem Coherent.openTable (h : s.Coherent) (id : ℕ) :
    (s.step misread (.openTable id)).Coherent := by
  cases hname : s.files.names id with
  | none =>
      rw [OpenTables.step, Files.openTable, hname]
      exact h
  | some version =>
      obtain ⟨sst, hcontents, rfl⟩ := h.named id version hname
      rw [OpenTables.step, Files.openTable_eq ⟨hname, hcontents⟩]
      -- a number that is known is that of the table in its file
      have hsame : ∀ sst', s.tables.lookup sst.id = some sst' → sst' = sst := by
        intro sst' hlookup
        have hcontents' := h.known _ version sst' hname hlookup
        rw [hcontents] at hcontents'
        exact (Option.some.inj hcontents').symm
      have hlookup : ∀ {id sst'}, s.tables.lookup id = some sst' →
          (s.tables.insert sst.id sst).lookup id = some sst' := by
        intro id sst' hlookup
        by_cases heq : id = sst.id
        · rw [heq] at hlookup ⊢
          rw [AList.lookup_insert, hsame sst' hlookup]
        · rwa [AList.lookup_insert_ne heq]
      -- the only open table that is new is this one
      have hmem : ∀ {t : OpenTable}, t ∈ s.opened ++ [(version, sst)] →
          t ∈ s.opened ∨ t = (version, sst) := by
        intro t ht
        exact (List.mem_append.mp ht).imp id List.mem_singleton.mp
      refine ⟨h.written, h.named, ?_, ?_, ?_, ?_, ?_⟩
      · intro id' version' sst' hname' hlookup'
        have hlookup' : (s.tables.insert sst.id sst).lookup id' = some sst' := hlookup'
        by_cases heq : id' = sst.id
        · rw [heq, AList.lookup_insert] at hlookup'
          rw [heq, hname] at hname'
          rw [← Option.some.inj hname', ← Option.some.inj hlookup']
          exact hcontents
        · rw [AList.lookup_insert_ne heq] at hlookup'
          exact h.known id' version' sst' hname' hlookup'
      · intro t ht
        rcases hmem ht with ht | rfl
        · exact ⟨(h.opened t ht).1, hlookup (h.opened t ht).2⟩
        · exact ⟨hcontents, AList.lookup_insert _⟩
      · intro t ht version' hname'
        rcases hmem ht with ht | rfl
        · exact h.named_opened t ht version' hname'
        · exact Option.some.inj (hname'.symm.trans hname)
      · exact fun key block hget => (h.cached key block hget).insert rfl hsame
      · exact fun e he => (h.inFlight e he).insert rfl hsame

/-- What a read brings from the disk is a block of the table. -/
theorem Coherent.fetched (h : s.Coherent) {t : OpenTable} (ht : t ∈ s.opened) {idx : ℕ}
    {result : Except Error (List Entry)}
    (hresult : ∀ block, result = .ok block → block = t.2.readBlock idx) :
    (s.fetched t idx result).Coherent := by
  cases result with
  | error e => exact h
  | ok block =>
      refine { h with inFlight := ?_ }
      intro e he
      rcases List.mem_append.mp he with hold | hnew
      · exact h.inFlight e hold
      · rw [List.mem_singleton.mp hnew]
        exact ⟨t.2, (h.opened t ht).2, hresult block rfl⟩

theorem Coherent.step (h : s.Coherent) {action : TableStep} (hnew : s.NewNumber action) :
    (s.step misread action).Coherent := by
  cases action with
  | write sst => exact h.write hnew
  | removeFile id => exact h.unlink id
  | openTable id => exact h.openTable id
  | closeTable n =>
      exact { h with
        opened := fun t ht => h.opened t (List.mem_of_mem_eraseIdx ht)
        named_opened := fun t ht => h.named_opened t (List.mem_of_mem_eraseIdx ht) }
  | readFromDisk n idx =>
      cases hopened : s.opened[n]? with
      | none =>
          rw [OpenTables.step, hopened]
          exact h
      | some t =>
          rw [OpenTables.step, hopened]
          have ht := List.mem_of_getElem? hopened
          apply h.fetched ht
          rw [h.readBlockFromDisk ht]
          exact fun block heq => (Except.ok.inj heq).symm
  | readByName n idx =>
      cases hopened : s.opened[n]? with
      | none =>
          rw [OpenTables.step, hopened]
          exact h
      | some t =>
          rw [OpenTables.step, hopened]
          have ht := List.mem_of_getElem? hopened
          apply h.fetched ht
          rw [h.readByName ht]
          -- by the name it is the same block, or none at all
          intro block heq
          split at heq
          · exact (Except.ok.inj heq).symm
          · contradiction
  | fill n =>
      cases hinFlight : s.inFlight[n]? with
      | none =>
          rw [OpenTables.step, hinFlight]
          exact h
      | some e =>
          rw [OpenTables.step, hinFlight]
          refine { h with cached := ?_, inFlight := ?_ }
          · intro key block hget
            rcases lookup_insert_cases hget with ⟨rfl, rfl⟩ | hold
            · exact h.inFlight e (List.mem_of_getElem? hinFlight)
            · exact h.cached key block hold
          · exact fun e he => h.inFlight e (List.mem_of_mem_eraseIdx he)
  | evict key => exact { h with cached := fun key block hget => h.cached key block (lookup_of_erase hget) }
  -- the caches and the open tables are those of the new process
  | reopen =>
      exact { h with
        known := nofun
        opened := nofun
        named_opened := nofun
        cached := nofun
        inFlight := nofun }

end

/-! ## Runs -/

/-- In every run in which no number is given twice while the Lsm is open, an open table is the
one that has its number, and answers every key as if there were no cache; its blocks come from
the cache or, as long as the file has its name, from the disk, and an iterator stands where it
would stand on the table itself. -/
theorem cachedReads_run (misread : SSTable → ℕ → Except Error (List Entry)) (steps : List TableStep)
    (hsteps : Run.Along (step misread) NewNumber init steps) :
    let s := Run.run (step misread) init steps
    ∀ t ∈ s.opened, s.tables.lookup t.2.id = some t.2 ∧
      (∀ key, s.get misread t key = .ok (t.2.get key)) ∧
      (∀ idx, s.readBlockCached misread t idx = .ok (t.2.readBlock idx) ∨
        s.files.names t.2.id = none ∧ s.cache.get ⟨t.2.id, idx⟩ = none ∧
          s.readBlockCached misread t idx = .error .io) ∧
      (s.files.names t.2.id ≠ none → ∀ target,
        (TableIterator.new (s.source misread) t.2 t.1).bind
            (fun it => it.seek (s.source misread) target) =
          .ok ⟨(SSTableIterator.new t.2).seek target, t.1⟩) := by
  intro s t ht
  have h : s.Coherent :=
    hsteps.invariant Coherent (fun _ _ h hnew => h.step hnew) coherent_init
  refine ⟨(h.opened t ht).2, ?_, ?_, ?_⟩
  · intro key
    -- a read of the open file, or the block that was cached from it
    have hread : ∀ idx, s.readBlock misread t idx = .ok (t.2.readBlock idx) := by
      intro idx
      rw [readBlock]
      cases hget : s.cache.get ⟨t.2.id, idx⟩ with
      | none => exact h.readBlockFromDisk ht idx
      | some block => exact congrArg Except.ok (h.block_eq ht hget)
    unfold get SSTable.get
    simp only [hread]
    split
    · rfl
    · split <;> rfl
  · intro idx
    rw [readBlockCached]
    cases hget : s.cache.get ⟨t.2.id, idx⟩ with
    | none =>
        simp only [h.readByName ht]
        cases hname : s.files.names t.2.id with
        | none => exact Or.inr ⟨rfl, trivial, rfl⟩
        | some version => exact Or.inl rfl
    | some block => exact Or.inl (congrArg Except.ok (h.block_eq ht hget))
  · intro hname target
    -- the iterator reads by name, which the file still has
    have hloads : TableIterator.LoadsFrom (s.source misread) t.1 t.2 0 := by
      intro idx _ _
      rw [source, readBlockCached]
      cases hget : s.cache.get ⟨t.2.id, idx⟩ with
      | none =>
          simp only [h.readByName ht, Option.isSome_iff_ne_none.mpr hname, if_true]
      | some block => exact congrArg Except.ok (h.block_eq ht hget)
    rw [TableIterator.new_eq hloads]
    exact TableIterator.seek_eq (by rwa [SSTableIterator.table_new]) target

/-- A table with one entry. -/
def tableOf (id : ℕ) (value : Bytes) : SSTable := SSTableBuilder.build id 1 [([107], some value)]

/-- A table is read into the cache, and its file goes; then another one is written. -/
def replaced (id : ℕ) : List TableStep :=
  [.write (tableOf 1 [1]), .openTable 1, .readFromDisk 0 0, .fill 0, .removeFile 1,
    .write (tableOf id [2]), .openTable id]

/-- Reads of a file with other bytes in it fail. -/
def failing : SSTable → ℕ → Except Error (List Entry) := fun _ _ => .error .io

theorem cachedReads_run_replaced :
    let s := Run.run (step failing) init (replaced 2)
    ∀ t ∈ s.opened, s.tables.lookup t.2.id = some t.2 ∧
      (∀ key, s.get failing t key = .ok (t.2.get key)) ∧
      (∀ idx, s.readBlockCached failing t idx = .ok (t.2.readBlock idx) ∨
        s.files.names t.2.id = none ∧ s.cache.get ⟨t.2.id, idx⟩ = none ∧
          s.readBlockCached failing t idx = .error .io) ∧
      (s.files.names t.2.id ≠ none → ∀ target,
        (TableIterator.new (s.source failing) t.2 t.1).bind
            (fun it => it.seek (s.source failing) target) =
          .ok ⟨(SSTableIterator.new t.2).seek target, t.1⟩) :=
  cachedReads_run failing (replaced 2) (by decide +kernel)

/-- Under the number of the first table the second one answers with its block. -/
example :
    let s := Run.run (step failing) init (replaced 1)
    s.opened[1]?.map (fun t => (t.2.get [107], s.get failing t [107])) =
      some (some [2], .ok (some [1])) := by
  decide +kernel

end OpenTables
end Crabstash

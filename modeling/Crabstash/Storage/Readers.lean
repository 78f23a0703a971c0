import Crabstash.Storage.OpenFiles

/-!
# Readers

A point read asks the tables one after another, and a scan opens an iterator for each of
them before it puts them together; afterwards its iterator is moved on by the caller.  The
compaction thread can do something between any two of these steps, so a read is kept as a
`Reader` that goes on by one step at a time (`proceed`).  The memtables and the list of
tables are those at its start, for the read lock is held until the iterator is returned.

How a table is asked and how an iterator is opened are parameters (`TableAccess`).  With
the tables themselves at hand (`TableAccess.direct`) the steps are those of `Lsm.getAtTs`
and `Lsm.scanRange`; `Reader.Mirrors.proceed` compares this with reading through files.
-/

namespace Crabstash

open StorageIterator

/-- The iterator of a scan, over any iterators of tables. -/
abbrev ScanIterator (ι : Type) :=
  BoundedIterator (TwoMergeIterator MemtableMerge
    (TwoMergeIterator (MergeIterator ι) (MergeIterator ι)))

/-- What a read returns: a value, or an iterator that stands on an item or has ended. -/
inductive Observation where
  | value (value : Option Bytes)
  | item (item : Option Item)
  deriving DecidableEq, Repr

/-- A read under way: a `get` with the tables it has still to ask, a scan that opens its
iterators, or one that runs. -/
inductive Reader (ι : Type) where
  | get (key : Bytes) (rest : List SSTable)
  | opening (start last : Bound) (memMerge : MemtableMerge) (l0 deeper : List ι)
      (restL0 restDeeper : List SSTable)
  | iterating (it : ScanIterator ι)
  | finished

/-- How a table is asked for a key, and how an iterator over it is opened and moved to the
start of a scan. -/
structure TableAccess (ι : Type) where
  get : SSTable → Bytes → Except Error (Option Bytes)
  openIterator : SSTable → Option Bytes → Except Error ι

namespace Reader

/-- The tables in the order in which a point read asks them. -/
def probed (s : Lsm) : List SSTable := (List.range 7).flatMap fun level => (s.levels level).reverse

section

variable {ι : Type}

/-- The part of `get_at_ts` before the tables. -/
def startGet (s : Lsm) (key : Bytes) (ts : ℕ) : Option (Except Error Observation) × Reader ι :=
  match s.memtable.getAtTs key ts with
  | some value => (some (.ok (.value value)), finished)
  | none =>
      match s.immutableMemtables.reverse.findSome? fun imm => imm.getAtTs key ts with
      | some value => (some (.ok (.value value)), finished)
      | none => (none, get key (probed s))

/-- The part of `build_scan_iterator` before the tables. -/
def startScan (s : Lsm) (start last : Bound) : Reader ι :=
  opening start last (s.buildMemtableIterator start.startKey) [] [] (s.levels 0).reverse
    ((List.range' 1 6).flatMap s.levels)

end

section

variable {ι : Type} [StorageIterator ι]

/-- Where an iterator stands. -/
def standing (it : ι) : Option Item := if isValid it then some (key it, value it) else none

/-- The loop over an excluded start key. -/
def skipExcluded (excluded : Bytes) : ℕ → ι → Except Error ι
  | 0, it => .ok it
  | fuel + 1, it =>
      if isValid it ∧ (key it).data = excluded then
        match next it with
        | (.error e, _) => .error e
        | (.ok (), it) => skipExcluded excluded fuel it
      else .ok it

/-- The part of `build_scan_iterator` after the iterators of the tables have been opened. -/
def assemble (start last : Bound) (memMerge : MemtableMerge) (l0 deeper : List ι) :
    Except Error (ScanIterator ι) :=
  let sstMerge := TwoMergeIterator.new (MergeIterator.new l0) (MergeIterator.new deeper)
  let bounded := BoundedIterator.new (TwoMergeIterator.new memMerge sstMerge) last
  match start.excludedKey with
  | none => .ok bounded
  | some excluded => skipExcluded excluded (remaining bounded) bounded

/-- One step of a read. -/
def proceed (access : TableAccess ι) :
    Reader ι → Option (Except Error Observation) × Reader ι
  | get _ [] => (some (.ok (.value none)), finished)
  | get key (sst :: rest) =>
      match access.get sst key with
      | .error e => (some (.error e), finished)
      | .ok (some value) => (some (.ok (.value (some value))), finished)
      | .ok none => (none, get key rest)
  | opening start last memMerge l0 deeper (sst :: restL0) restDeeper =>
      match access.openIterator sst start.startKey with
      | .error e => (some (.error e), finished)
      | .ok it => (none, opening start last memMerge (l0 ++ [it]) deeper restL0 restDeeper)
  | opening start last memMerge l0 deeper [] (sst :: restDeeper) =>
      match access.openIterator sst start.startKey with
      | .error e => (some (.error e), finished)
      | .ok it => (none, opening start last memMerge l0 (deeper ++ [it]) [] restDeeper)
  | opening start last memMerge l0 deeper [] [] =>
      match assemble start last memMerge l0 deeper with
      | .error e => (some (.error e), finished)
      | .ok it => (some (.ok (.item (standing it))), iterating it)
  | iterating it =>
      match next it with
      | (.error e, it) => (some (.error e), iterating it)
      | (.ok (), it) => (some (.ok (.item (standing it))), iterating it)
  | finished => (none, finished)

end
end Reader

/-! ## With the tables at hand -/

/-- The tables themselves. -/
def TableAccess.direct : TableAccess SSTableIterator where
  get := fun sst key => .ok (sst.get key)
  openIterator := fun sst startKey => .ok (Lsm.openSstIterator sst startKey)

namespace Reader

theorem probe_eq (s : Lsm) (key : Bytes) :
    Lsm.probe s.levels key = (probed s).findSome? fun sst => sst.get key := by
  unfold Lsm.probe probed
  induction List.range 7 with
  | nil => rfl
  | cons level rest ih =>
      rw [List.findSome?_cons, List.flatMap_cons, List.findSome?_append, ih]
      cases (s.levels level).reverse.findSome? fun sst => sst.get key <;> rfl

theorem skipExcluded_eq (excluded : Bytes) (fuel : ℕ) (it : LsmIterator) :
    skipExcluded excluded fuel it = Lsm.skipExcluded excluded fuel it := by
  induction fuel generalizing it with
  | zero => rfl
  | succ fuel ih =>
      rw [skipExcluded, Lsm.skipExcluded]
      by_cases hexcluded : isValid it = true ∧ (key it).data = excluded
      · rw [if_pos hexcluded, if_pos hexcluded]
        cases hnext : next it with
        | mk result it' =>
            cases result with
            | error e => rfl
            | ok => exact ih it'
      · rw [if_neg hexcluded, if_neg hexcluded]

/-- A scan put together from iterators over the tables is `scan_range`. -/
theorem assemble_eq (s : Lsm) (start last : Bound) :
    assemble start last (s.buildMemtableIterator start.startKey)
      ((s.levels 0).reverse.map fun sst => Lsm.openSstIterator sst start.startKey)
      (((List.range' 1 6).flatMap s.levels).map fun sst =>
        Lsm.openSstIterator sst start.startKey) = s.scanRange start last := by
  unfold assemble Lsm.scanRange Lsm.buildScanIterator
  cases start.excludedKey with
  | none => rfl
  | some excluded => exact skipExcluded_eq excluded _ _

end Reader

/-! ## Through files -/

/-- The tables by their files: point reads through the handles, iterators by name. -/
def TableAccess.ofFiles (files : Files) (handle : ℕ → FileVersion)
    (misread : SSTable → ℕ → Except Error (List Entry)) :
    TableAccess (TableIterator.From (files.readBlockCached misread)) where
  get := fun sst key => files.get misread (handle sst.id) sst key
  openIterator := fun sst startKey =>
    (files.openTable sst.id).bind fun (version, table) =>
      (TableIterator.new (files.readBlockCached misread) table version).bind fun it =>
        match startKey with
        | none => .ok it
        | some key => it.seek (files.readBlockCached misread) key

/-- The file of the iterator is there as long as there are blocks left to load. -/
def TableIterator.Ready (files : Files) (t : TableIterator) : Prop :=
  t.it.blockIdx + 1 < t.it.table.blockMetas.length → files.HasFile t.version t.it.table

instance (files : Files) (t : TableIterator) : Decidable (t.Ready files) :=
  inferInstanceAs (Decidable (_ → _))

namespace Reader

section

variable {ι : Type}

/-- The iterators of tables that a scan still goes through. -/
def tables (it : ScanIterator ι) : List ι := it.inner.b.a.members ++ it.inner.b.b.members

/-- The table that the next step asks. -/
def asked : Reader ι → Option SSTable
  | get _ (sst :: _) => some sst
  | _ => none

/-- The table that the next step opens. -/
def toOpen : Reader ι → Option SSTable
  | opening _ _ _ _ _ (sst :: _) _ => some sst
  | opening _ _ _ _ _ [] (sst :: _) => some sst
  | _ => none

/-- The iterators that the next step may move. -/
def moved : Reader ι → List ι
  | opening _ _ _ l0 deeper [] [] => l0 ++ deeper
  | iterating it => tables it
  | _ => []

end

/-- The files that the next step of a read needs are there: those of point reads not
overwritten since they were opened, those of scans under their names. -/
structure Ready (files : Files) (r : Reader TableIterator) : Prop where
  asked : ∀ sst ∈ r.asked, files.contents (.ofLsm sst.id) = some sst
  toOpen : ∀ sst ∈ r.toOpen, files.HasFile (.ofLsm sst.id) sst
  moved : ∀ t ∈ r.moved, t.Ready files

instance (files : Files) (r : Reader TableIterator) : Decidable (r.Ready files) :=
  decidable_of_iff
    ((∀ sst ∈ r.asked, files.contents (.ofLsm sst.id) = some sst) ∧
      (∀ sst ∈ r.toOpen, files.HasFile (.ofLsm sst.id) sst) ∧ ∀ t ∈ r.moved, t.Ready files)
    ⟨fun h => ⟨h.1, h.2.1, h.2.2⟩, fun h => ⟨h.asked, h.toOpen, h.moved⟩⟩

/-! ## The steps through files and those on the tables -/

/-- The sources in memory agree step by step. -/
abbrev MemRelated : MemtableMerge → MemtableMerge → Prop :=
  TwoMergeIterator.Related Eq (MergeIterator.Related Eq)

/-- Scans of the same memtables over related iterators of tables. -/
abbrev ScanRelated {ι κ : Type} (R : ι → κ → Prop) : ScanIterator ι → ScanIterator κ → Prop :=
  BoundedIterator.Related (TwoMergeIterator.Related MemRelated
    (TwoMergeIterator.Related (MergeIterator.Related R) (MergeIterator.Related R)))

theorem lockstep_memtables : Lockstep MemRelated :=
  have hmemtable : Lockstep (Eq : MemTableIterator → MemTableIterator → Prop) :=
    Lockstep.refl fun _ => ⟨_, rfl⟩
  TwoMergeIterator.lockstep hmemtable (MergeIterator.lockstep hmemtable)

theorem memRelated_refl (it : MemtableMerge) : MemRelated it it := by
  have hentry : ∀ e : HeapEntry MemTableIterator, HeapEntry.Related Eq e e := fun _ => ⟨rfl, rfl⟩
  refine ⟨rfl, ⟨List.forall₂_same.mpr fun e _ => hentry e, ?_⟩, rfl⟩
  cases it.b.current with
  | none => exact Option.Rel.none
  | some e => exact Option.Rel.some (hentry e)

section

variable {ι κ : Type} {R Q : ι → κ → Prop}

theorem ScanRelated.imp {it : ScanIterator ι} {it' : ScanIterator κ} (h : ScanRelated R it it')
    (himp : ∀ a ∈ tables it, ∀ b, R a b → Q a b) : ScanRelated Q it it' := by
  refine ⟨⟨h.inner.a, ⟨?_, ?_, h.inner.b.useA⟩, h.inner.useA⟩, h.endBound, h.valid⟩
  · exact h.inner.b.a.imp fun a ha => himp a (List.mem_append_left _ ha)
  · exact h.inner.b.b.imp fun a ha => himp a (List.mem_append_right _ ha)

variable [StorageIterator ι] [StorageIterator κ]

theorem lockstep_scan (h : Lockstep R) : Lockstep (ScanRelated R) :=
  BoundedIterator.lockstep (TwoMergeIterator.lockstep lockstep_memtables
    (TwoMergeIterator.lockstep (MergeIterator.lockstep h) (MergeIterator.lockstep h)))

theorem standing_eq (h : Lockstep R) {a : ι} {b : κ} (hab : R a b) : standing a = standing b := by
  unfold standing
  rw [h.isValid_eq hab, h.key_eq hab, h.value_eq hab]

theorem related_skipExcluded (h : Lockstep R) (excluded : Bytes) (fuel : ℕ) {a : ι} {b : κ}
    (hab : R a b) : ∃ a' b', skipExcluded excluded fuel a = .ok a' ∧
      skipExcluded excluded fuel b = .ok b' ∧ R a' b' := by
  induction fuel generalizing a b with
  | zero => exact ⟨a, b, rfl, rfl, hab⟩
  | succ fuel ih =>
      rw [skipExcluded, skipExcluded, h.isValid_eq hab, h.key_eq hab]
      by_cases hexcluded : isValid b = true ∧ (key b).data = excluded
      · rw [if_pos hexcluded, if_pos hexcluded]
        obtain ⟨a', b', hnext, hnext', hab'⟩ := h.next_eq hab
        rw [hnext, hnext']
        exact ih hab'
      · rw [if_neg hexcluded, if_neg hexcluded]
        exact ⟨a, b, rfl, rfl, hab⟩

theorem related_assemble (h : Lockstep R) (start last : Bound) (memMerge : MemtableMerge)
    {l0 deeper : List ι} {l0' deeper' : List κ} (hl0 : List.Forall₂ R l0 l0')
    (hdeeper : List.Forall₂ R deeper deeper') :
    ∃ it it', assemble start last memMerge l0 deeper = .ok it ∧
      assemble start last memMerge l0' deeper' = .ok it' ∧ ScanRelated R it it' := by
  have hmerge := MergeIterator.lockstep h
  have hsst := TwoMergeIterator.related_new hmerge hmerge (MergeIterator.related_new h hl0)
    (MergeIterator.related_new h hdeeper)
  have hfull := TwoMergeIterator.related_new lockstep_memtables
    (TwoMergeIterator.lockstep hmerge hmerge) (memRelated_refl memMerge) hsst
  have hbounded : ScanRelated R _ _ := BoundedIterator.related_new
    (TwoMergeIterator.lockstep lockstep_memtables (TwoMergeIterator.lockstep hmerge hmerge))
    hfull last
  unfold assemble
  cases start.excludedKey with
  | none => exact ⟨_, _, rfl, rfl, hbounded⟩
  | some excluded =>
      simp only [(lockstep_scan h).remaining_eq hbounded]
      exact related_skipExcluded (lockstep_scan h) excluded _ hbounded

end

/-- Two reads that are at the same point, with related iterators; of the tables that they
are still going to, `K` holds. -/
inductive Mirrors {ι κ : Type} (R : ι → κ → Prop) (K : SSTable → Prop) : Reader ι → Reader κ → Prop
  | get (key : Bytes) (rest : List SSTable) (hrest : ∀ sst ∈ rest, K sst) :
      Mirrors R K (get key rest) (get key rest)
  | opening (start last : Bound) (memMerge : MemtableMerge) (restL0 restDeeper : List SSTable)
      {l0 deeper : List ι} {l0' deeper' : List κ} (hl0 : List.Forall₂ R l0 l0')
      (hdeeper : List.Forall₂ R deeper deeper') (hrest : ∀ sst ∈ restL0 ++ restDeeper, K sst) :
      Mirrors R K (opening start last memMerge l0 deeper restL0 restDeeper)
        (opening start last memMerge l0' deeper' restL0 restDeeper)
  | iterating {it : ScanIterator ι} {it' : ScanIterator κ} (h : ScanRelated R it it') :
      Mirrors R K (iterating it) (iterating it')
  | finished : Mirrors R K finished finished

section

variable {ι κ : Type} {R Q : ι → κ → Prop} {K : SSTable → Prop}

theorem forall₂_imp {l : List ι} {l' : List κ} (h : List.Forall₂ R l l')
    (himp : ∀ a ∈ l, ∀ b, R a b → Q a b) : List.Forall₂ Q l l' := by
  induction h with
  | nil => exact List.Forall₂.nil
  | cons hhead _ ih =>
      rw [List.forall_mem_cons] at himp
      exact List.Forall₂.cons (himp.1 _ hhead) (ih himp.2)

theorem Mirrors.imp {K' : SSTable → Prop} {r : Reader ι} {r' : Reader κ} (h : Mirrors R K r r')
    (hR : ∀ a b, R a b → Q a b) (hK : ∀ sst, K sst → K' sst) : Mirrors Q K' r r' := by
  cases h with
  | get key rest hrest => exact Mirrors.get key rest fun sst h => hK sst (hrest sst h)
  | opening start last memMerge restL0 restDeeper hl0 hdeeper hrest =>
      exact Mirrors.opening start last memMerge restL0 restDeeper
        (forall₂_imp hl0 fun a _ => hR a) (forall₂_imp hdeeper fun a _ => hR a)
        fun sst h => hK sst (hrest sst h)
  | iterating h => exact Mirrors.iterating (h.imp fun a _ => hR a)
  | finished => exact Mirrors.finished

/-- The table that is asked next is one that the read is still going to. -/
theorem Mirrors.asked {r : Reader ι} {r' : Reader κ} (h : Mirrors R K r r') {sst : SSTable}
    (hsst : sst ∈ r.asked) : K sst := by
  cases h with
  | get key rest hrest =>
      cases rest with
      | nil => exact absurd hsst (Option.not_mem_none sst)
      | cons first rest =>
          obtain rfl : first = sst := Option.some.inj hsst
          exact hrest first (List.mem_cons_self ..)
  | _ => exact absurd hsst (Option.not_mem_none sst)

theorem Mirrors.toOpen {r : Reader ι} {r' : Reader κ} (h : Mirrors R K r r') {sst : SSTable}
    (hsst : sst ∈ r.toOpen) : K sst := by
  cases h with
  | opening start last memMerge restL0 restDeeper _ _ hrest =>
      match restL0, restDeeper with
      | first :: restL0, restDeeper =>
          obtain rfl : first = sst := Option.some.inj hsst
          exact hrest first (List.mem_cons_self ..)
      | [], first :: restDeeper =>
          obtain rfl : first = sst := Option.some.inj hsst
          exact hrest first (List.mem_cons_self ..)
      | [], [] => exact absurd hsst (Option.not_mem_none sst)
  | _ => exact absurd hsst (Option.not_mem_none sst)

theorem exists_of_forall₂ {l : List ι} {l' : List κ} (h : List.Forall₂ R l l') {a : ι}
    (ha : a ∈ l) : ∃ b, R a b := by
  induction h with
  | nil => exact absurd ha List.not_mem_nil
  | cons hhead _ ih =>
      rcases List.mem_cons.mp ha with rfl | ha
      · exact ⟨_, hhead⟩
      · exact ih ha

/-- Every iterator that the next step may move has one that it is related to. -/
theorem Mirrors.moved {r : Reader ι} {r' : Reader κ} (h : Mirrors R K r r') {a : ι}
    (ha : a ∈ r.moved) : ∃ b, R a b := by
  cases h with
  | opening start last memMerge restL0 restDeeper hl0 hdeeper _ =>
      match restL0, restDeeper with
      | _ :: _, _ => exact absurd ha List.not_mem_nil
      | [], _ :: _ => exact absurd ha List.not_mem_nil
      | [], [] =>
          rcases List.mem_append.mp ha with ha | ha
          · exact exists_of_forall₂ hl0 ha
          · exact exists_of_forall₂ hdeeper ha
  | iterating h =>
      rcases List.mem_append.mp ha with ha | ha
      · exact h.inner.b.a.exists_of_mem ha
      · exact h.inner.b.b.exists_of_mem ha
  | _ => exact absurd ha List.not_mem_nil

variable [StorageIterator ι] [StorageIterator κ] {access : TableAccess ι}
  {access' : TableAccess κ}

/-- Mirroring reads that are about to get the same from their tables do the same, without
an error, and go on as mirroring reads.  Only the iterators that are moved have to be in
step. -/
theorem Mirrors.proceed {r : Reader ι} {r' : Reader κ} (h : Mirrors R K r r') (hQ : Lockstep Q)
    (hmoved : ∀ a ∈ r.moved, ∀ b, R a b → Q a b) (hback : ∀ a b, Q a b → R a b)
    (hasked : ∀ sst ∈ r.asked, ∀ key, ∃ value,
      access.get sst key = .ok value ∧ access'.get sst key = .ok value)
    (hopen : ∀ sst ∈ r.toOpen, K sst → ∀ startKey, ∃ it it',
      access.openIterator sst startKey = .ok it ∧
        access'.openIterator sst startKey = .ok it' ∧ R it it') :
    (r.proceed access).1 = (r'.proceed access').1 ∧
    (∀ o ∈ (r'.proceed access').1, ∃ observation, o = .ok observation) ∧
    Mirrors R K (r.proceed access).2 (r'.proceed access').2 := by
  have hnone : ∀ o ∈ (none : Option (Except Error Observation)), ∃ observation, o = .ok observation :=
    fun o ho => absurd ho (Option.not_mem_none o)
  have hsome : ∀ observation, ∀ o ∈ (some (.ok observation) : Option (Except Error Observation)),
      ∃ observation, o = .ok observation :=
    fun observation o ho => ⟨observation, (Option.mem_some.mp ho).symm⟩
  cases h with
  | get key rest hrest =>
      cases rest with
      | nil => exact ⟨rfl, hsome _, Mirrors.finished⟩
      | cons sst rest =>
          obtain ⟨value, hget, hget'⟩ := hasked sst rfl key
          simp only [Reader.proceed, hget, hget']
          cases value with
          | none =>
              refine ⟨rfl, hnone, ?_⟩
              exact Mirrors.get key rest fun sst' h => hrest sst' (List.mem_cons_of_mem _ h)
          | some value => exact ⟨rfl, hsome _, Mirrors.finished⟩
  | opening start last memMerge restL0 restDeeper hl0 hdeeper hrest =>
      match restL0, restDeeper with
      | sst :: restL0, restDeeper =>
          obtain ⟨it, it', hit, hit', hrelated⟩ :=
            hopen sst rfl (hrest sst (List.mem_cons_self ..)) start.startKey
          simp only [Reader.proceed, hit, hit']
          refine ⟨trivial, hnone, ?_⟩
          refine Mirrors.opening start last memMerge restL0 restDeeper ?_ hdeeper ?_
          · exact List.rel_append hl0 (List.Forall₂.cons hrelated List.Forall₂.nil)
          · exact fun sst' h => hrest sst' (List.mem_cons_of_mem _ h)
      | [], sst :: restDeeper =>
          obtain ⟨it, it', hit, hit', hrelated⟩ :=
            hopen sst rfl (hrest sst (List.mem_cons_self ..)) start.startKey
          simp only [Reader.proceed, hit, hit']
          refine ⟨trivial, hnone, ?_⟩
          refine Mirrors.opening start last memMerge [] restDeeper hl0 ?_ ?_
          · exact List.rel_append hdeeper (List.Forall₂.cons hrelated List.Forall₂.nil)
          · exact fun sst' h => hrest sst' (List.mem_cons_of_mem _ h)
      | [], [] =>
          -- all tables are open: the merge is put together and stands on its first item
          obtain ⟨it, it', hit, hit', hrelated⟩ := related_assemble hQ start last memMerge
            (forall₂_imp hl0 fun a ha => hmoved a (List.mem_append_left _ ha))
            (forall₂_imp hdeeper fun a ha => hmoved a (List.mem_append_right _ ha))
          simp only [Reader.proceed, hit, hit', standing_eq (lockstep_scan hQ) hrelated]
          exact ⟨trivial, hsome _, Mirrors.iterating (hrelated.imp fun a _ => hback a)⟩
  | iterating h =>
      have hscan : ScanRelated Q _ _ := h.imp hmoved
      obtain ⟨it, it', hit, hit', hrelated⟩ := (lockstep_scan hQ).next_eq hscan
      simp only [Reader.proceed, hit, hit', standing_eq (lockstep_scan hQ) hrelated]
      exact ⟨trivial, hsome _, Mirrors.iterating (hrelated.imp fun a _ => hback a)⟩
  | finished => exact ⟨rfl, hnone, Mirrors.finished⟩

end

open TableIterator

section

variable {files : Files} (misread : SSTable → ℕ → Except Error (List Entry))
  {K : FileVersion → SSTable → Prop}

theorem table_openSstIterator (sst : SSTable) (startKey : Option Bytes) :
    (Lsm.openSstIterator sst startKey).table = sst := by
  unfold Lsm.openSstIterator
  cases startKey with
  | none => exact SSTableIterator.table_new sst
  | some key =>
      unfold SSTableIterator.seek
      rw [SSTableIterator.table_skipBelow, SSTableIterator.table_parseEntry,
        SSTableIterator.table_loadBlock]
      exact SSTableIterator.table_new sst

theorem openIterator_eq {sst : SSTable} (h : files.HasFile (.ofLsm sst.id) sst)
    (startKey : Option Bytes) :
    (TableAccess.ofFiles files .ofLsm misread).openIterator sst startKey =
      .ok (⟨Lsm.openSstIterator sst startKey, .ofLsm sst.id⟩ : TableIterator) := by
  have hloads : LoadsFrom (files.readBlockCached misread) (.ofLsm sst.id) sst 0 :=
    fun idx _ _ => Files.readBlockCached_eq h idx
  unfold TableAccess.ofFiles Lsm.openSstIterator
  simp only [Files.openTable_eq h]
  show (TableIterator.new (files.readBlockCached misread) sst (.ofLsm sst.id)).bind _ = _
  rw [new_eq hloads]
  cases startKey with
  | none => rfl
  | some key =>
      apply seek_eq
      rw [SSTableIterator.table_new]
      exact hloads

/-- An iterator whose file is there as long as it is needed keeps in step. -/
theorem followsFrom_of_ready {t : TableIterator} {it : SSTableIterator} (h : Follows K t it)
    (hready : t.Ready files) : FollowsFrom (files.readBlockCached misread) K t it where
  follows := h
  loads := by
    intro idx hidx hin
    have htable : t.it.table = it.table := by rw [h.it_eq]
    have hmore : t.it.blockIdx + 1 < t.it.table.blockMetas.length := by
      rw [h.it_eq]
      omega
    have hfile := hready hmore
    rw [htable] at hfile
    exact Files.readBlockCached_eq hfile idx

/-- A step of a read whose files are there is the step on the tables, and does not fail. -/
theorem Mirrors.proceed_files {r : Reader TableIterator} {r' : Reader SSTableIterator}
    (h : Mirrors (Follows K) (fun sst => K (.ofLsm sst.id) sst) r r') (hready : r.Ready files) :
    (r.proceed (TableAccess.ofFiles files .ofLsm misread)).1 = (r'.proceed .direct).1 ∧
    (∀ o ∈ (r'.proceed .direct).1, ∃ observation, o = .ok observation) ∧
    Mirrors (Follows K) (fun sst => K (.ofLsm sst.id) sst)
      (r.proceed (TableAccess.ofFiles files .ofLsm misread)).2 (r'.proceed .direct).2 := by
  refine Mirrors.proceed h (TableIterator.lockstep (files.readBlockCached misread) K) ?_ ?_ ?_ ?_
  · intro t ht it hfollows
    exact followsFrom_of_ready misread hfollows (hready.moved t ht)
  · intro t it hfollows
    exact hfollows.follows
  · intro sst hsst key
    exact ⟨sst.get key, Files.get_eq (hready.asked sst hsst) key, rfl⟩
  · intro sst hsst hkeeps startKey
    refine ⟨_, _, openIterator_eq misread (hready.toOpen sst hsst) startKey, rfl, rfl, ?_⟩
    show K (.ofLsm sst.id) (Lsm.openSstIterator sst startKey).table
    rw [table_openSstIterator]
    exact hkeeps

end
end Reader
end Crabstash

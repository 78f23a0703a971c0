import Crabstash.Storage.TableContents
import Crabstash.Storage.TableReads

/-!
# Where reading a table panics

Only the blocks have a checksum, and it does not cover what a block holds.  So the numbers in the
footer, in the metadata and in front of the entries are used as they are found, and whether a file
can be read without a panic depends on what is at the places that the calls come to.

For a lookup this is one block.  An iterator comes to a block by `seek`, or by `next` from the
block before, and a block that fails to load does not end it: `seek` has moved the block index by
then, so that the next `next` goes on from there with what is left of the block it had.  `Comes`
says which blocks are come to, and these must be whole (`Intact`).

In one direction the invariant of the iterators is that what is left of their block are entries,
and that the next block is come to (`Good`).  In the other, an iterator from which `next` alone
does not panic (`Panics`) shows its block to be whole, as it walks to the end of it.
-/

namespace Crabstash

open LittleEndian

/-- The output buffer does not grow. -/
def TableCodec.WithinBuffer (codec : TableCodec) : Prop :=
  ∀ data uncompressedLen output, codec.decompressInto data uncompressedLen = .ok output →
    output.length ≤ uncompressedLen

namespace TableFile

section Model

variable (codec : TableCodec) (t : TableFile) (cache : BlockCache codec t)

namespace Iter

/-- The iterator after a `load_block` and `parse_entry` of which one failed. -/
def loadLeft (it : Iter) (idx : ℕ) : Iter :=
  match it.loadBlock codec t cache idx with
  | .error _ => it
  | .ok it => it

/-- The iterator after the loop of `seek`, also if `next` failed there. -/
def skipLeft (target : Bytes) : ℕ → Iter → Iter
  | 0, it => it
  | fuel + 1, it =>
      if it.valid ∧ it.currentKey.data < target then
        match it.parseEntry codec t cache with
        | .error _ => it
        | .ok it => skipLeft target fuel it
      else it

/-- The iterator after a `seek` that failed. -/
def seekLeft (it : Iter) (target : Bytes) : Iter :=
  let blockIdx := t.findBlock target
  match loadAndParse codec t cache { it with blockIdx } blockIdx with
  | .error _ => loadLeft codec t cache { it with blockIdx } blockIdx
  | .ok it => it.skipLeft codec t cache target t.entriesBound

/-- The iterators over a table: a new one, and what the calls make of it, also those that return an
error.  A `next` that does so changes nothing. -/
inductive Held : Iter → Prop
  | new {cache : BlockCache codec t} {it : Iter} (hnew : Iter.new codec t cache = .ok it) : Held it
  | next {cache : BlockCache codec t} {it it' : Iter} (hit : Held it)
      (hnext : it.parseEntry codec t cache = .ok it') : Held it'
  | seek {cache : BlockCache codec t} {it it' : Iter} {target : Bytes} (hit : Held it)
      (hseek : it.seek codec t cache target = .ok it') : Held it'
  | seekFailed {cache : BlockCache codec t} {it : Iter} {target : Bytes} {e : Error} (hit : Held it)
      (hseek : it.seek codec t cache target = .error (.error e)) :
      Held (it.seekLeft codec t cache target)
  | seekToFirst {cache : BlockCache codec t} {it it' : Iter} (hit : Held it)
      (hseek : it.seekToFirst codec t cache = .ok it') : Held it'
  | seekToFirstFailed {cache : BlockCache codec t} {it : Iter} {e : Error} (hit : Held it)
      (hseek : it.seekToFirst codec t cache = .error (.error e)) :
      Held (loadLeft codec t cache { it with blockIdx := 0 } 0)

end Iter

/-- The calls on an opened table return: none panics, and the loop of `seek` ends. -/
structure Answers : Prop where
  get : ∀ cache key, t.get codec cache key ≠ .error .panic
  new : ∀ cache, Iter.new codec t cache ≠ .error .panic
  next : ∀ it, Iter.Held codec t it → ∀ cache, it.parseEntry codec t cache ≠ .error .panic
  seek : ∀ it, Iter.Held codec t it → ∀ cache target,
    it.seek codec t cache target ≠ .error .panic
  seekEnds : ∀ it, Iter.Held codec t it → ∀ cache target it',
    it.seek codec t cache target = .ok it' → ¬(it'.valid = true ∧ it'.currentKey.data < target)
  seekToFirst : ∀ it, Iter.Held codec t it → ∀ cache,
    it.seekToFirst codec t cache ≠ .error .panic

/-- Opening the file does not panic, nor does any call on the table. -/
def NeverPanics (id : ℕ) (file : Bytes) : Prop :=
  openFile id file ≠ .error .panic ∧ ∀ t, openFile id file = .ok t → Answers codec t

/-- There are iterators: the first block can be read, and behind an empty one the second. -/
def Starts : Prop :=
  ∀ idx, idx < t.blockMetas.length → idx = 0 ∨ idx = 1 ∧ HasBlock codec t 0 [] →
    ∃ block, HasBlock codec t idx block

/-- The blocks that iterators come to. -/
inductive Comes : ℕ → Prop
  | first (hidx : 0 < t.blockMetas.length) : Comes 0
  | next {idx : ℕ} {block : Bytes} (hcomes : Comes idx) (hblock : HasBlock codec t idx block)
      (hidx : idx + 1 < t.blockMetas.length) : Comes (idx + 1)
  | seek (hstarts : Starts codec t) {target : Bytes}
      (hidx : t.findBlock target < t.blockMetas.length) : Comes (t.findBlock target)
  | afterSeek (hstarts : Starts codec t) {target : Bytes}
      (hidx : t.findBlock target + 1 < t.blockMetas.length) : Comes (t.findBlock target + 1)

/-- The bloom filter has bits to probe; and the blocks that are read are long enough for a checksum
and, if they can be decompressed, whole as far as they are read. -/
structure Intact : Prop where
  bloom : t.bloom.bits ≠ [] ∨ t.bloom.numHashes = 0
  lookup : ∀ key, t.bloom.mayContain key = true → t.findBlock key < t.blockMetas.length →
    ¬ShortBlock t (t.findBlock key) ∧
      ∀ block, HasBlock codec t (t.findBlock key) block → Searchable key block
  blocks : ∀ idx, Comes codec t idx →
    ¬ShortBlock t idx ∧ ∀ block, HasBlock codec t idx block → IsBlock block

end Model

/-! ## One call -/

section Calls

variable {codec : TableCodec} {t : TableFile} (cache : BlockCache codec t)

theorem findBlock_lt (hmetas : 0 < t.blockMetas.length) (key : Bytes) :
    t.findBlock key < t.blockMetas.length :=
  BinarySearch.floor_lt_length hmetas _

/-- A lookup panics for want of bits, or in the one block it reads. -/
theorem get_ne_panic_iff (key : Bytes) :
    t.get codec cache key ≠ .error .panic ↔
      (t.bloom.bits ≠ [] ∨ t.bloom.numHashes = 0) ∧
        (t.bloom.mayContain key = true → t.findBlock key < t.blockMetas.length →
          ¬ShortBlock t (t.findBlock key) ∧
            ∀ block, HasBlock codec t (t.findBlock key) block → Searchable key block) := by
  unfold get
  by_cases hbits : t.bloom.bits.isEmpty ∧ 0 < t.bloom.numHashes
  · rw [if_pos hbits]
    -- the first probe divides by the number of bits
    obtain ⟨hempty, hhashes⟩ := hbits
    refine iff_of_false (fun h => h rfl) ?_
    rintro ⟨hne | hzero, -⟩
    · exact hne (List.isEmpty_iff.mp hempty)
    · omega
  have hprobes : t.bloom.bits ≠ [] ∨ t.bloom.numHashes = 0 := by
    by_cases hne : t.bloom.bits = []
    · right
      by_contra hhashes
      exact hbits ⟨List.isEmpty_iff.mpr hne, Nat.pos_of_ne_zero hhashes⟩
    · exact Or.inl hne
  rw [if_neg hbits, and_iff_right hprobes]
  cases hmay : t.bloom.mayContain key with
  | false => simp
  | true =>
      simp only [Bool.not_true, Bool.false_eq_true, if_false, true_implies]
      by_cases hidx : t.blockMetas.length ≤ t.findBlock key
      · rw [if_pos hidx]
        exact iff_of_true (by simp) fun hlt => absurd hidx (not_le.mpr hlt)
      rw [if_neg hidx, readBlock_eq, forall_prop_of_true (not_le.mp hidx)]
      rcases readBlockFromDisk_cases codec (not_le.mp hidx) with
        ⟨hshort, hread⟩ | ⟨hshort, hnone, e, hread⟩ | ⟨hshort, block, hblock, hread⟩
      · rw [hread]
        exact iff_of_false (fun h => h rfl) fun h => h.1 hshort
      · rw [hread]
        exact iff_of_true (by simp) ⟨hshort, fun block hblock => absurd hblock (hnone block)⟩
      · rw [hread, and_iff_right hshort]
        have hsearch : Searchable key block ↔
            ∀ block, HasBlock codec t (t.findBlock key) block → Searchable key block := by
          refine ⟨fun h block' hblock' => ?_, fun h => h block hblock⟩
          rwa [hblock'.unique hblock]
        rw [← hsearch, ← searchBlock_ne_none_iff]
        simp only
        cases searchBlock block key with
        | none => simp
        | some value => simp

namespace Iter

/-- The iterator at the start of a block that was loaded. -/
def atBlock (it : Iter) (idx : ℕ) (block : Bytes) : Iter :=
  { it with blockData := block, blockOffset := 0, blockIdx := idx }

variable {it : Iter}

theorem loadBlock_of_le {idx : ℕ} (hidx : t.blockMetas.length ≤ idx) :
    it.loadBlock codec t cache idx = .ok { it with valid := false } := if_pos hidx

theorem loadBlock_of_lt {idx : ℕ} (hidx : idx < t.blockMetas.length) :
    it.loadBlock codec t cache idx =
      match t.readBlockFromDisk codec idx with
      | .error e => .error e
      | .ok block => .ok (it.atBlock idx block) := by
  rw [loadBlock, if_neg (not_le.mpr hidx), readBlockCached, readBlock_eq]
  rfl

theorem parseEntry_of_lt (hroom : it.blockOffset < it.blockData.length) :
    it.parseEntry codec t cache = it.takeEntry := if_neg (not_le.mpr hroom)

theorem parseEntry_of_last (hend : it.blockData.length ≤ it.blockOffset)
    (hlast : t.blockMetas.length ≤ it.blockIdx + 1) :
    it.parseEntry codec t cache = .ok { it with valid := false } := by
  rw [parseEntry, if_pos hend, if_pos hlast]

theorem parseEntry_of_end (hend : it.blockData.length ≤ it.blockOffset)
    (hidx : it.blockIdx + 1 < t.blockMetas.length) :
    it.parseEntry codec t cache =
      match t.readBlockFromDisk codec (it.blockIdx + 1) with
      | .error e => .error e
      | .ok block => (it.atBlock (it.blockIdx + 1) block).takeEntry := by
  rw [parseEntry, if_pos hend, if_neg (not_le.mpr hidx), loadBlock_of_lt cache hidx]
  cases t.readBlockFromDisk codec (it.blockIdx + 1) <;> rfl

theorem loadAndParse_of_lt {idx : ℕ} (hidx : idx < t.blockMetas.length) :
    it.loadAndParse codec t cache idx =
      match t.readBlockFromDisk codec idx with
      | .error e => .error e
      | .ok block => (it.atBlock idx block).parseEntry codec t cache := by
  rw [loadAndParse, loadBlock_of_lt cache hidx]
  cases t.readBlockFromDisk codec idx <;> rfl

theorem loadAndParse_of_le {idx : ℕ} (hidx : t.blockMetas.length ≤ idx) :
    it.loadAndParse codec t cache idx =
      parseEntry codec t cache { it with valid := false } := by
  rw [loadAndParse, loadBlock_of_le cache hidx]

end Iter

/-! ## The loop of a seek ends -/

/-- No more entries are left: those of the block, and those of the blocks behind. -/
def Iter.bound (t : TableFile) (it : Iter) : ℕ :=
  (it.blockData.length - it.blockOffset) +
    ((t.blockMetas.drop (it.blockIdx + 1)).map fun m => max m.length m.uncompressedLength).sum

theorem HasBlock.length_le (hbuffer : codec.WithinBuffer) {idx : ℕ} {block : Bytes}
    (h : HasBlock codec t idx block) :
    ∃ m, t.blockMetas[idx]? = some m ∧ block.length ≤ max m.length m.uncompressedLength := by
  obtain ⟨m, data, rest, hm, -, hlength, hdecompress⟩ := h
  refine ⟨m, hm, ?_⟩
  unfold TableCodec.decompressBlock at hdecompress
  split at hdecompress
  · obtain rfl := Except.ok.inj hdecompress
    have hdata : data.length ≤ m.length := by
      rw [hlength, TableCodec.frame, List.length_append]
      exact Nat.le_add_right ..
    exact le_max_of_le_left hdata
  · split at hdecompress
    · contradiction
    · next output houtput =>
        obtain rfl := Except.ok.inj hdecompress
        exact le_max_of_le_right (hbuffer _ _ _ houtput)

namespace Iter

variable {it it' : Iter}

theorem bound_atBlock_le (hbuffer : codec.WithinBuffer) (it : Iter) {idx : ℕ} {block : Bytes}
    (hblock : HasBlock codec t idx block) :
    (it.atBlock idx block).bound t ≤
      ((t.blockMetas.drop idx).map fun m => max m.length m.uncompressedLength).sum := by
  obtain ⟨m, hm, hlength⟩ := hblock.length_le hbuffer
  obtain ⟨hidx, rfl⟩ := List.getElem?_eq_some_iff.mp hm
  rw [List.drop_eq_getElem_cons hidx, List.map_cons, List.sum_cons]
  exact Nat.add_le_add_right hlength _

theorem bound_takeEntry_lt (htake : it.takeEntry = .ok it') (hvalid : it'.valid = true) :
    it'.bound t < it.bound t := by
  rcases Nat.lt_or_ge it.blockOffset it.blockData.length with hroom | hend
  · rw [takeEntry_of_lt hroom] at htake
    split at htake
    · contradiction
    · next e rest hdecode =>
        obtain rfl := Except.ok.inj htake
        have hpos := List.length_pos_iff.mpr (encodeEntry_ne_nil e)
        show it.blockData.length - (it.blockOffset + (encodeEntry e).length) + _ < _
        rw [bound]
        exact Nat.add_lt_add_right (by omega) _
  · rw [takeEntry_of_le hend] at htake
    obtain rfl := Except.ok.inj htake
    contradiction

theorem bound_parseEntry_lt (hbuffer : codec.WithinBuffer)
    (hparse : it.parseEntry codec t cache = .ok it') (hvalid : it'.valid = true) :
    it'.bound t < it.bound t := by
  rcases Nat.lt_or_ge it.blockOffset it.blockData.length with hroom | hend
  · rw [parseEntry_of_lt cache hroom] at hparse
    exact bound_takeEntry_lt hparse hvalid
  rcases Nat.lt_or_ge (it.blockIdx + 1) t.blockMetas.length with hidx | hlast
  · rw [parseEntry_of_end cache hend hidx] at hparse
    split at hparse
    · contradiction
    · next block hread =>
        have hblock := bound_atBlock_le hbuffer it (readBlockFromDisk_eq_ok_iff.mp hread)
        calc it'.bound t
            < (it.atBlock (it.blockIdx + 1) block).bound t := bound_takeEntry_lt hparse hvalid
          _ ≤ ((t.blockMetas.drop (it.blockIdx + 1)).map fun m =>
                max m.length m.uncompressedLength).sum := hblock
          _ ≤ it.bound t := Nat.le_add_left ..
  · rw [parseEntry_of_last cache hend hlast] at hparse
    obtain rfl := Except.ok.inj hparse
    contradiction

theorem skipBelow_ends (hbuffer : codec.WithinBuffer) {target : Bytes} {fuel : ℕ}
    (hfuel : it.valid = true → it.bound t < fuel)
    (hskip : it.skipBelow codec t cache target fuel = .ok it') :
    ¬(it'.valid = true ∧ it'.currentKey.data < target) := by
  induction fuel generalizing it with
  | zero =>
      obtain rfl := Except.ok.inj hskip
      exact fun h => Nat.not_lt_zero _ (hfuel h.1)
  | succ fuel ih =>
      rw [skipBelow] at hskip
      split at hskip
      · next hbelow =>
          split at hskip
          · contradiction
          · next parsed hparse =>
              refine ih (fun hvalid => ?_) hskip
              have hstep := bound_parseEntry_lt cache hbuffer hparse hvalid
              have hbefore := hfuel hbelow.1
              omega
      · next hdone =>
          obtain rfl := Except.ok.inj hskip
          exact hdone

theorem seek_ends (hbuffer : codec.WithinBuffer) {target : Bytes}
    (hempty : t.blockMetas = [] → it.blockData = [])
    (hseek : it.seek codec t cache target = .ok it') :
    ¬(it'.valid = true ∧ it'.currentKey.data < target) := by
  rw [seek_eq] at hseek
  split at hseek
  · contradiction
  next landed hland =>
  refine skipBelow_ends cache hbuffer (fun hvalid => ?_) hseek
  rcases Nat.eq_zero_or_pos t.blockMetas.length with hnone | hmetas
  · -- without blocks there is nothing to land on
    rw [loadAndParse_of_le cache (hnone ▸ Nat.zero_le _), parseEntry_of_last cache] at hland
    · obtain rfl := Except.ok.inj hland
      contradiction
    · simp [hempty (List.eq_nil_of_length_eq_zero hnone)]
    · exact hnone ▸ Nat.zero_le _
  · have hidx := findBlock_lt hmetas target
    rw [loadAndParse_of_lt cache hidx] at hland
    split at hland
    · contradiction
    · next block hread =>
        have hblock := readBlockFromDisk_eq_ok_iff.mp hread
        calc landed.bound t
            < _ := bound_parseEntry_lt cache hbuffer hland hvalid
          _ ≤ ((t.blockMetas.drop (t.findBlock target)).map fun m =>
                max m.length m.uncompressedLength).sum := bound_atBlock_le hbuffer _ hblock
          _ ≤ t.entriesBound := by
              rw [entriesBound, ← List.take_append_drop (t.findBlock target) t.blockMetas,
                List.map_append, List.sum_append, List.take_append_drop]
              exact Nat.le_add_left ..

end Iter

/-! ## Intact tables -/

/-- An iterator has been made, so what it takes to make one can be read. -/
theorem starts_of_new {it : Iter} (hnew : Iter.new codec t cache = .ok it) : Starts codec t := by
  have hread : ∀ {idx : ℕ} {block : Bytes}, HasBlock codec t idx block →
      t.readBlockFromDisk codec idx = .ok block := readBlockFromDisk_eq_ok_iff.mpr
  rintro idx hidx (rfl | ⟨rfl, hfirst⟩)
  · rw [Iter.new, Iter.loadAndParse_of_lt cache hidx] at hnew
    split at hnew
    · contradiction
    · next block hblock => exact ⟨block, readBlockFromDisk_eq_ok_iff.mp hblock⟩
  · rw [Iter.new, Iter.loadAndParse_of_lt cache (Nat.zero_lt_of_lt hidx), hread hfirst] at hnew
    simp only at hnew
    rw [Iter.parseEntry_of_end cache (Nat.zero_le _) hidx] at hnew
    split at hnew
    · contradiction
    · next block hblock => exact ⟨block, readBlockFromDisk_eq_ok_iff.mp hblock⟩

theorem Iter.takeEntry_ne_error (it : Iter) (e : Error) : it.takeEntry ≠ .error (.error e) := by
  rcases Nat.lt_or_ge it.blockOffset it.blockData.length with hroom | hend
  · rw [takeEntry_of_lt hroom]
    split <;> simp
  · rw [takeEntry_of_le hend]
    simp

theorem Starts.new_ne_error (hstarts : Starts codec t) (e : Error) :
    Iter.new codec t cache ≠ .error (.error e) := by
  rw [Iter.new]
  rcases Nat.eq_zero_or_pos t.blockMetas.length with hnone | hfirst
  · have hlast : t.blockMetas.length ≤ 0 + 1 := by omega
    rw [Iter.loadAndParse_of_le cache hnone.le,
      Iter.parseEntry_of_last cache (Nat.zero_le _) hlast]
    simp
  obtain ⟨block, hblock⟩ := hstarts 0 hfirst (Or.inl rfl)
  rw [Iter.loadAndParse_of_lt cache hfirst, readBlockFromDisk_eq_ok_iff.mpr hblock]
  rcases Nat.eq_zero_or_pos block.length with hnil | hroom
  · obtain rfl := List.eq_nil_of_length_eq_zero hnil
    rcases Nat.lt_or_ge 1 t.blockMetas.length with hidx | hlast
    · obtain ⟨block, hsecond⟩ := hstarts 1 hidx (Or.inr ⟨rfl, hblock⟩)
      simp only
      rw [Iter.parseEntry_of_end cache (Nat.zero_le _) hidx]
      simp only [Iter.atBlock, readBlockFromDisk_eq_ok_iff.mpr hsecond]
      exact Iter.takeEntry_ne_error _ e
    · simp only
      rw [Iter.parseEntry_of_last cache (Nat.zero_le _) hlast]
      simp
  · simp only
    rw [Iter.parseEntry_of_lt cache hroom]
    exact Iter.takeEntry_ne_error _ e

theorem Starts.comes_one (hstarts : Starts codec t) (hidx : 1 < t.blockMetas.length) :
    Comes codec t 1 := by
  have hfirst : 0 < t.blockMetas.length := Nat.zero_lt_of_lt hidx
  obtain ⟨block, hblock⟩ := hstarts 0 hfirst (Or.inl rfl)
  exact .next (.first hfirst) hblock hidx

/-- What is left of the block are entries, and the next block is come to. -/
structure Iter.Good (codec : TableCodec) (t : TableFile) (it : Iter) : Prop where
  rest : IsBlock (it.blockData.drop it.blockOffset)
  next : it.blockIdx + 1 < t.blockMetas.length → Comes codec t (it.blockIdx + 1)
  empty : t.blockMetas = [] → it.blockData = []

/-- A call that does not panic, and leaves a good iterator where it succeeds. -/
def Iter.GoodResult (codec : TableCodec) (t : TableFile) (result : Except TableFailure Iter) :
    Prop :=
  result ≠ .error .panic ∧ ∀ it, result = .ok it → Good codec t it

namespace Iter

variable {it : Iter}

theorem goodResult_ok (h : Good codec t it) : GoodResult codec t (.ok it) := by
  refine ⟨by simp, fun it' heq => ?_⟩
  obtain rfl := Except.ok.inj heq
  exact h

theorem goodResult_error (e : Error) : GoodResult codec t (.error (.error e)) := by
  refine ⟨by simp, fun it' heq => ?_⟩
  contradiction

namespace Good

theorem invalid (h : Good codec t it) : Good codec t { it with valid := false } :=
  ⟨h.rest, h.next, h.empty⟩

theorem takeEntry (h : Good codec t it) : GoodResult codec t it.takeEntry := by
  rcases Nat.lt_or_ge it.blockOffset it.blockData.length with hroom | hend
  · have hne : it.blockData.drop it.blockOffset ≠ [] := by simpa using hroom
    obtain ⟨e, rest, hdecode, hrest⟩ := decodeEntry_of_isBlock h.rest hne
    rw [takeEntry_of_lt hroom, hdecode]
    refine goodResult_ok ⟨?_, h.next, h.empty⟩
    rw [drop_taken (decodeEntry_eq_some_iff.mp hdecode).2]
    exact hrest
  · rw [takeEntry_of_le hend]
    exact goodResult_ok h.invalid

/-- A block that is come to is entered at its start. -/
theorem atBlock (hintact : Intact codec t) (it : Iter) {idx : ℕ} {block : Bytes}
    (hcomes : Comes codec t idx) (hblock : HasBlock codec t idx block) :
    Good codec t (it.atBlock idx block) := by
  refine ⟨(hintact.blocks idx hcomes).2 block hblock, fun hidx => .next hcomes hblock hidx, ?_⟩
  intro hnone
  obtain ⟨m, -, -, hm, -⟩ := hblock
  simp [hnone] at hm

theorem parseEntry (hintact : Intact codec t) (h : Good codec t it) :
    GoodResult codec t (it.parseEntry codec t cache) := by
  rcases Nat.lt_or_ge it.blockOffset it.blockData.length with hroom | hend
  · rw [parseEntry_of_lt cache hroom]
    exact h.takeEntry
  rcases Nat.lt_or_ge (it.blockIdx + 1) t.blockMetas.length with hidx | hlast
  · have hcomes := h.next hidx
    rw [parseEntry_of_end cache hend hidx]
    rcases readBlockFromDisk_cases codec hidx with
      ⟨hshort, -⟩ | ⟨-, -, e, hread⟩ | ⟨-, block, hblock, hread⟩
    · exact absurd hshort (hintact.blocks _ hcomes).1
    · rw [hread]
      exact goodResult_error e
    · rw [hread]
      exact (atBlock hintact it hcomes hblock).takeEntry
  · rw [parseEntry_of_last cache hend hlast]
    exact goodResult_ok h.invalid

theorem loadAndParse (hintact : Intact codec t) {idx : ℕ}
    (hcomes : idx < t.blockMetas.length → Comes codec t idx)
    (hbeyond : t.blockMetas.length ≤ idx → Good codec t it) :
    GoodResult codec t (it.loadAndParse codec t cache idx) := by
  rcases Nat.lt_or_ge idx t.blockMetas.length with hidx | hlast
  · rw [loadAndParse_of_lt cache hidx]
    rcases readBlockFromDisk_cases codec hidx with
      ⟨hshort, -⟩ | ⟨-, -, e, hread⟩ | ⟨-, block, hblock, hread⟩
    · exact absurd hshort (hintact.blocks _ (hcomes hidx)).1
    · rw [hread]
      exact goodResult_error e
    · rw [hread]
      exact (atBlock hintact it (hcomes hidx) hblock).parseEntry cache hintact
  · rw [loadAndParse_of_le cache hlast]
    exact (hbeyond hlast).invalid.parseEntry cache hintact

theorem loadLeft (hintact : Intact codec t) {idx : ℕ}
    (hcomes : idx < t.blockMetas.length → Comes codec t idx) (h : Good codec t it) :
    Good codec t (it.loadLeft codec t cache idx) := by
  unfold Iter.loadLeft
  rcases Nat.lt_or_ge idx t.blockMetas.length with hidx | hlast
  · rw [loadBlock_of_lt cache hidx]
    cases hread : t.readBlockFromDisk codec idx with
    | error e => exact h
    | ok block => exact atBlock hintact it (hcomes hidx) (readBlockFromDisk_eq_ok_iff.mp hread)
  · rw [loadBlock_of_le cache hlast]
    exact h.invalid

theorem skipBelow (hintact : Intact codec t) (target : Bytes) (fuel : ℕ) (h : Good codec t it) :
    GoodResult codec t (it.skipBelow codec t cache target fuel) ∧
      Good codec t (it.skipLeft codec t cache target fuel) := by
  induction fuel generalizing it with
  | zero => exact ⟨goodResult_ok h, h⟩
  | succ fuel ih =>
      rw [Iter.skipBelow, Iter.skipLeft]
      by_cases hbelow : it.valid ∧ it.currentKey.data < target
      · have hparse := h.parseEntry cache hintact
        rw [if_pos hbelow, if_pos hbelow]
        cases hresult : it.parseEntry codec t cache with
        | ok parsed => exact ih (hparse.2 parsed hresult)
        | error failure =>
            cases failure with
            | error e => exact ⟨goodResult_error e, h⟩
            | panic => exact absurd hresult hparse.1
      · rw [if_neg hbelow, if_neg hbelow]
        exact ⟨goodResult_ok h, h⟩

/-- Moving the block index of an iterator that is there. -/
theorem moved (h : Good codec t it) (hstarts : Starts codec t) (target : Bytes) :
    Good codec t { it with blockIdx := t.findBlock target } :=
  ⟨h.rest, fun hidx => .afterSeek hstarts hidx, h.empty⟩

theorem seek (hintact : Intact codec t) (hstarts : Starts codec t) (target : Bytes)
    (h : Good codec t it) :
    GoodResult codec t (it.seek codec t cache target) ∧
      Good codec t (it.seekLeft codec t cache target) := by
  have hmoved := h.moved hstarts target
  have hcomes : t.findBlock target < t.blockMetas.length → Comes codec t (t.findBlock target) :=
    .seek hstarts
  have hland := loadAndParse cache hintact hcomes fun _ => hmoved
  rw [seek_eq, seekLeft]
  cases hresult : Iter.loadAndParse codec t cache { it with blockIdx := t.findBlock target }
      (t.findBlock target) with
  | ok landed => exact (hland.2 landed hresult).skipBelow cache hintact target t.entriesBound
  | error failure =>
      cases failure with
      | error e => exact ⟨goodResult_error e, hmoved.loadLeft cache hintact hcomes⟩
      | panic => exact absurd hresult hland.1

theorem seekToFirst (hintact : Intact codec t) (hstarts : Starts codec t) (h : Good codec t it) :
    GoodResult codec t (it.seekToFirst codec t cache) ∧
      Good codec t (Iter.loadLeft codec t cache { it with blockIdx := 0 } 0) := by
  have hmoved : Good codec t { it with blockIdx := 0 } :=
    ⟨h.rest, fun hidx => hstarts.comes_one hidx, h.empty⟩
  exact ⟨loadAndParse cache hintact .first fun _ => hmoved,
    hmoved.loadLeft cache hintact .first⟩

end Good

theorem goodResult_new (hintact : Intact codec t) :
    GoodResult codec t (Iter.new codec t cache) := by
  refine Good.loadAndParse cache hintact .first fun hnone => ⟨isBlock_nil, ?_, fun _ => rfl⟩
  intro hidx
  exact absurd hidx (by simp only; omega)

theorem Held.good (hintact : Intact codec t) {it : Iter} (h : Held codec t it) :
    Good codec t it ∧ Starts codec t := by
  induction h with
  | @new cache it hnew =>
      exact ⟨(goodResult_new cache hintact).2 it hnew, starts_of_new cache hnew⟩
  | @next cache it it' _ hnext ih => exact ⟨(ih.1.parseEntry cache hintact).2 it' hnext, ih.2⟩
  | @seek cache it it' target _ hseek ih =>
      exact ⟨(ih.1.seek cache hintact ih.2 target).1.2 it' hseek, ih.2⟩
  | @seekFailed cache it target e _ _ ih => exact ⟨(ih.1.seek cache hintact ih.2 target).2, ih.2⟩
  | @seekToFirst cache it it' _ hseek ih =>
      exact ⟨(ih.1.seekToFirst cache hintact ih.2).1.2 it' hseek, ih.2⟩
  | @seekToFirstFailed cache it e _ _ ih =>
      exact ⟨(ih.1.seekToFirst cache hintact ih.2).2, ih.2⟩

end Iter

theorem Intact.answers (hintact : Intact codec t) (hbuffer : codec.WithinBuffer) :
    Answers codec t where
  get cache key := (get_ne_panic_iff cache key).mpr ⟨hintact.bloom, hintact.lookup key⟩
  new cache := (Iter.goodResult_new cache hintact).1
  next it hit cache := ((hit.good hintact).1.parseEntry cache hintact).1
  seek it hit cache target := by
    obtain ⟨hgood, hstarts⟩ := hit.good hintact
    exact (hgood.seek cache hintact hstarts target).1.1
  seekEnds it hit cache target it' hseek :=
    Iter.seek_ends cache hbuffer (hit.good hintact).1.empty hseek
  seekToFirst it hit cache := by
    obtain ⟨hgood, hstarts⟩ := hit.good hintact
    exact (hgood.seekToFirst cache hintact hstarts).1.1


/-! ## Tables that answer -/

/-- Some number of `next` and then one that panics. -/
inductive Iter.Panics (codec : TableCodec) (t : TableFile) : Iter → Prop
  | now {cache : BlockCache codec t} {it : Iter}
      (hnext : it.parseEntry codec t cache = .error .panic) : Panics codec t it
  | later {cache : BlockCache codec t} {it it' : Iter}
      (hnext : it.parseEntry codec t cache = .ok it') (hlater : Panics codec t it') :
      Panics codec t it

namespace Iter

variable {it it' : Iter}

/-- What a call returns does not depend on the cache. -/
theorem parseEntry_cache (it : Iter) (cache cache' : BlockCache codec t) :
    it.parseEntry codec t cache = it.parseEntry codec t cache' := by
  rcases Nat.lt_or_ge it.blockOffset it.blockData.length with hroom | hend
  · rw [parseEntry_of_lt cache hroom, parseEntry_of_lt cache' hroom]
  rcases Nat.lt_or_ge (it.blockIdx + 1) t.blockMetas.length with hidx | hlast
  · rw [parseEntry_of_end cache hend hidx, parseEntry_of_end cache' hend hidx]
  · rw [parseEntry_of_last cache hend hlast, parseEntry_of_last cache' hend hlast]

theorem panics_of_parseEntry_eq
    (heq : it.parseEntry codec t cache = it'.parseEntry codec t cache) (h : Panics codec t it) :
    Panics codec t it' := by
  cases h with
  | now hnext =>
      rw [parseEntry_cache it _ cache, heq] at hnext
      exact .now hnext
  | later hnext hlater =>
      rw [parseEntry_cache it _ cache, heq] at hnext
      exact .later hnext hlater

theorem not_panics_of_error {e : Error}
    (hnext : it.parseEntry codec t cache = .error (.error e)) : ¬Panics codec t it := by
  intro h
  cases h with
  | now hnext' =>
      rw [parseEntry_cache it _ cache, hnext] at hnext'
      cases hnext'
  | later hnext' =>
      rw [parseEntry_cache it _ cache, hnext] at hnext'
      contradiction

theorem not_panics_of_ok (hnext : it.parseEntry codec t cache = .ok it')
    (hit' : ¬Panics codec t it') : ¬Panics codec t it := by
  intro h
  cases h with
  | now hnext' =>
      rw [parseEntry_cache it _ cache, hnext] at hnext'
      contradiction
  | later hnext' hlater =>
      rw [parseEntry_cache it _ cache, hnext] at hnext'
      obtain rfl := Except.ok.inj hnext'
      exact hit' hlater

/-- An iterator that does not panic walks to the end of its block, which shows the rest of the
block to be entries. -/
theorem exists_end (hit : ¬Panics codec t it) :
    IsBlock (it.blockData.drop it.blockOffset) ∧
      ∃ it', ¬Panics codec t it' ∧ it'.blockIdx = it.blockIdx ∧
        it'.blockData.length ≤ it'.blockOffset := by
  induction hleft : it.blockData.length - it.blockOffset using Nat.strong_induction_on
    generalizing it with
  | _ left ih =>
      rcases Nat.lt_or_ge it.blockOffset it.blockData.length with hroom | hend
      · have hparse := (parseEntry_of_lt (BlockCache.empty codec t) hroom).trans
          (takeEntry_of_lt hroom)
        cases hdecode : decodeEntry (it.blockData.drop it.blockOffset) with
        | none =>
            rw [hdecode] at hparse
            exact absurd (.now hparse) hit
        | some decoded =>
            obtain ⟨e, rest⟩ := decoded
            obtain ⟨hfits, hdata⟩ := decodeEntry_eq_some_iff.mp hdecode
            have hpos := List.length_pos_iff.mpr (encodeEntry_ne_nil e)
            have hlt : (it.taken e).blockData.length - (it.taken e).blockOffset < left := by
              show it.blockData.length - (it.blockOffset + (encodeEntry e).length) < left
              omega
            rw [hdecode] at hparse
            obtain ⟨hrest, it', hit', hidx, hend⟩ :=
              ih _ hlt (fun hlater => hit (.later hparse hlater)) rfl
            rw [drop_taken hdata] at hrest
            refine ⟨?_, it', hit', hidx, hend⟩
            rw [hdata]
            exact (isBlock_append_iff hfits).mpr hrest
      · refine ⟨?_, it, hit, rfl, hend⟩
        rw [List.drop_eq_nil_iff.mpr hend]
        exact isBlock_nil

/-- The loop of a seek comes through, to an iterator that does not panic if it succeeds. -/
theorem not_panics_of_skipBelow {target : Bytes} {fuel : ℕ}
    (hskip : it.skipBelow codec t cache target fuel ≠ .error .panic)
    (hlanded : ∀ it', it.skipBelow codec t cache target fuel = .ok it' → ¬Panics codec t it') :
    ¬Panics codec t it := by
  induction fuel generalizing it with
  | zero => exact hlanded it rfl
  | succ fuel ih =>
      rw [skipBelow] at hskip hlanded
      by_cases hbelow : it.valid ∧ it.currentKey.data < target
      · rw [if_pos hbelow] at hskip hlanded
        cases hparse : it.parseEntry codec t cache with
        | ok parsed =>
            rw [hparse] at hskip hlanded
            exact not_panics_of_ok cache hparse (ih hskip hlanded)
        | error failure =>
            cases failure with
            | error e => exact not_panics_of_error cache hparse
            | panic =>
                rw [hparse] at hskip
                exact absurd rfl hskip
      · rw [if_neg hbelow] at hlanded
        exact hlanded it rfl

end Iter

/-- Some call reads the block and goes through it. -/
def Tried (codec : TableCodec) (t : TableFile) (idx : ℕ) : Prop :=
  ¬ShortBlock t idx ∧ ∀ block, HasBlock codec t idx block →
    ∃ it : Iter, ¬it.Panics codec t ∧ it.blockIdx = idx ∧ it.blockOffset = 0 ∧ it.blockData = block

theorem Tried.isBlock {idx : ℕ} (h : Tried codec t idx) :
    ¬ShortBlock t idx ∧ ∀ block, HasBlock codec t idx block → IsBlock block := by
  refine ⟨h.1, fun block hblock => ?_⟩
  obtain ⟨it, hit, -, hoffset, rfl⟩ := h.2 block hblock
  have hrest := (Iter.exists_end hit).1
  rwa [hoffset] at hrest

namespace Iter

variable {it : Iter}

theorem tried_of_loadAndParse (it : Iter) {idx : ℕ} (hidx : idx < t.blockMetas.length)
    (hload : it.loadAndParse codec t cache idx ≠ .error .panic)
    (hloaded : ∀ it', it.loadAndParse codec t cache idx = .ok it' → ¬Panics codec t it') :
    Tried codec t idx := by
  rw [loadAndParse_of_lt cache hidx] at hload hloaded
  rcases readBlockFromDisk_cases codec hidx with
    ⟨-, hread⟩ | ⟨hshort, hnone, -⟩ | ⟨hshort, block, hblock, hread⟩
  · rw [hread] at hload
    exact absurd rfl hload
  · exact ⟨hshort, fun block hblock => absurd hblock (hnone block)⟩
  · rw [hread] at hload hloaded
    refine ⟨hshort, fun block' hblock' => ?_⟩
    obtain rfl := hblock.unique hblock'
    refine ⟨it.atBlock idx block, ?_, rfl, rfl, rfl⟩
    cases hparse : (it.atBlock idx block).parseEntry codec t cache with
    | ok parsed => exact not_panics_of_ok cache hparse (hloaded parsed hparse)
    | error failure =>
        cases failure with
        | error e => exact not_panics_of_error cache hparse
        | panic => exact absurd hparse hload

/-- Behind the end of its block an iterator reads the next one. -/
theorem tried_succ (hit : ¬Panics codec t it) (hidx : it.blockIdx + 1 < t.blockMetas.length) :
    Tried codec t (it.blockIdx + 1) := by
  obtain ⟨-, last, hlast, hlastIdx, hend⟩ := exists_end hit
  rw [← hlastIdx] at hidx ⊢
  have hparse := parseEntry_of_end (BlockCache.empty codec t) hend hidx
  rcases readBlockFromDisk_cases codec hidx with
    ⟨-, hread⟩ | ⟨hshort, hnone, -⟩ | ⟨hshort, block, hblock, hread⟩
  · rw [hread] at hparse
    exact absurd (.now hparse) hlast
  · exact ⟨hshort, fun block hblock => absurd hblock (hnone block)⟩
  refine ⟨hshort, fun block' hblock' => ?_⟩
  obtain rfl := hblock.unique hblock'
  rw [hread] at hparse
  simp only at hparse
  rcases Nat.eq_zero_or_pos block.length with hnil | hroom
  · -- an empty block ends the iterator, without reading the one behind it
    have hempty : (last.atBlock (last.blockIdx + 1) block).takeEntry =
        .ok { last.atBlock (last.blockIdx + 1) block with valid := false } :=
      takeEntry_of_le (hnil ▸ Nat.zero_le _)
    rw [hempty] at hparse
    exact ⟨_, fun hlater => hlast (.later hparse hlater), rfl, rfl, rfl⟩
  · have hsame : last.parseEntry codec t (BlockCache.empty codec t) =
        (last.atBlock (last.blockIdx + 1) block).parseEntry codec t (BlockCache.empty codec t) := by
      rw [hparse, parseEntry_of_lt _ hroom]
    exact ⟨_, fun h => hlast (panics_of_parseEntry_eq _ hsame.symm h), rfl, rfl, rfl⟩

end Iter

namespace Answers

variable (h : Answers codec t)

include h

theorem not_panics {it : Iter} (hit : it.Held codec t) : ¬it.Panics codec t := by
  intro hpanics
  induction hpanics with
  | @now cache it hnext => exact h.next it hit cache hnext
  | later hnext _ ih => exact ih (hit.next hnext)

theorem exists_held (hstarts : Starts codec t) : ∃ it, Iter.Held codec t it := by
  have hnew := h.new (BlockCache.empty codec t)
  cases hresult : Iter.new codec t (BlockCache.empty codec t) with
  | ok it => exact ⟨it, .new hresult⟩
  | error failure =>
      cases failure with
      | panic => exact absurd hresult hnew
      | error e => exact absurd hresult (hstarts.new_ne_error _ e)

theorem tried_findBlock {it : Iter} (hit : it.Held codec t) {target : Bytes}
    (hidx : t.findBlock target < t.blockMetas.length) : Tried codec t (t.findBlock target) := by
  have hseek := h.seek it hit (BlockCache.empty codec t) target
  refine Iter.tried_of_loadAndParse (BlockCache.empty codec t)
    { it with blockIdx := t.findBlock target } hidx ?_ ?_
  · intro hpanic
    rw [Iter.seek_eq, hpanic] at hseek
    exact hseek rfl
  · intro landed hland
    have hskip : it.seek codec t (BlockCache.empty codec t) target =
        landed.skipBelow codec t (BlockCache.empty codec t) target t.entriesBound := by
      rw [Iter.seek_eq, hland]
    rw [hskip] at hseek
    refine Iter.not_panics_of_skipBelow _ hseek fun it' hit' => ?_
    exact h.not_panics (hit.seek (hskip.trans hit'))

theorem tried_succ_findBlock {it : Iter} (hit : it.Held codec t) {target : Bytes}
    (hidx : t.findBlock target + 1 < t.blockMetas.length) :
    Tried codec t (t.findBlock target + 1) := by
  have hlt : t.findBlock target < t.blockMetas.length := Nat.lt_of_succ_lt hidx
  have htried := h.tried_findBlock hit hlt
  rcases readBlockFromDisk_cases codec hlt with
    ⟨hshort, -⟩ | ⟨-, -, e, hread⟩ | ⟨-, block, hblock, -⟩
  · exact absurd hshort htried.1
  · -- the seek fails, and leaves the iterator in front of the next block
    have hload : Iter.loadAndParse codec t (BlockCache.empty codec t)
        { it with blockIdx := t.findBlock target } (t.findBlock target) = .error (.error e) := by
      rw [Iter.loadAndParse_of_lt _ hlt, hread]
    have hseek : it.seek codec t (BlockCache.empty codec t) target = .error (.error e) := by
      rw [Iter.seek_eq, hload]
    have hleft : it.seekLeft codec t (BlockCache.empty codec t) target =
        { it with blockIdx := t.findBlock target } := by
      rw [Iter.seekLeft, hload]
      simp only
      rw [Iter.loadLeft, Iter.loadBlock_of_lt _ hlt, hread]
    have hheld := hit.seekFailed hseek
    rw [hleft] at hheld
    exact Iter.tried_succ (h.not_panics hheld) hidx
  · obtain ⟨last, hlast, hlastIdx, -⟩ := htried.2 block hblock
    rw [← hlastIdx] at hidx ⊢
    exact Iter.tried_succ hlast hidx

theorem tried {idx : ℕ} (hcomes : Comes codec t idx) : Tried codec t idx := by
  induction hcomes with
  | first hidx =>
      refine Iter.tried_of_loadAndParse (BlockCache.empty codec t) _ hidx (h.new _) ?_
      intro it hnew
      exact h.not_panics (.new hnew)
  | next _ hblock hidx ih =>
      obtain ⟨last, hlast, rfl, -⟩ := ih.2 _ hblock
      exact Iter.tried_succ hlast hidx
  | seek hstarts hidx =>
      obtain ⟨it, hit⟩ := h.exists_held hstarts
      exact h.tried_findBlock hit hidx
  | afterSeek hstarts hidx =>
      obtain ⟨it, hit⟩ := h.exists_held hstarts
      exact h.tried_succ_findBlock hit hidx

theorem intact : Intact codec t where
  bloom := ((get_ne_panic_iff _ []).mp (h.get (BlockCache.empty codec t) [])).1
  lookup key := ((get_ne_panic_iff _ key).mp (h.get (BlockCache.empty codec t) key)).2
  blocks _ hcomes := (h.tried hcomes).isBlock

end Answers

end Calls

/-- **Reading a file panics unless it is turned down or intact**, and only then. -/
theorem neverPanics_iff {codec : TableCodec} (hbuffer : codec.WithinBuffer) (id : ℕ)
    (file : Bytes) :
    NeverPanics codec id file ↔
      Rejected file ∨ ∃ t, Carries id file t ∧ Intact codec t := by
  constructor
  · rintro ⟨hopen, hanswers⟩
    rcases openFile_ne_panic_iff.mp hopen with hrejected | ⟨t, hcarries⟩
    · exact Or.inl hrejected
    · exact Or.inr ⟨t, hcarries, (hanswers t (openFile_of_carries hcarries)).intact⟩
  · rintro (hrejected | ⟨t, hcarries, hintact⟩)
    · refine ⟨openFile_ne_panic_iff.mpr (Or.inl hrejected), fun t hopen => ?_⟩
      obtain ⟨e, he⟩ := openFile_of_rejected id hrejected
      rw [he] at hopen
      contradiction
    · refine ⟨openFile_ne_panic_iff.mpr (Or.inr ⟨t, hcarries⟩), fun t' hopen => ?_⟩
      rw [openFile_of_carries hcarries] at hopen
      obtain rfl := Except.ok.inj hopen
      exact hintact.answers hbuffer

theorem withinBuffer_literalCodec : literalCodec.WithinBuffer := by
  intro data uncompressedLen output houtput
  obtain rfl := Except.ok.inj houtput
  rw [List.length_drop]
  omega

theorem Comes.lt {codec : TableCodec} {t : TableFile} {idx : ℕ} (h : Comes codec t idx) :
    idx < t.blockMetas.length := by
  cases h with
  | first hidx => exact hidx
  | next _ _ hidx => exact hidx
  | seek _ hidx => exact hidx
  | afterSeek _ hidx => exact hidx

/-- A table of two entries; a byte of its only block has been changed, the first of a key. -/
def damagedBlock : TableFile where
  id := 1
  file := (Builder.build literalCodec 1 2 .none [([1], some [10]), ([2], some [20])]).set 4 3
  blockMetas := [⟨0, 24, 20, [1], []⟩]
  bloom := (SSTableBuilder.build 1 2 [([1], some [10]), ([2], some [20])]).bloom
  compression := .none
  minKey := [1]
  maxKey := []

/-- The checksum tells the change, and every call that comes to the block returns an error. -/
theorem neverPanics_damagedBlock : NeverPanics literalCodec 1 damagedBlock.file := by
  have hread : damagedBlock.readBlockFromDisk literalCodec 0 =
      .error (.error (.corruption "Block checksum mismatch")) := by decide +kernel
  have hshort : ¬ShortBlock damagedBlock 0 := by
    have hidx : 0 < damagedBlock.blockMetas.length := by decide
    rw [← readBlockFromDisk_eq_panic_iff hidx, hread]
    exact nofun
  have hblock : ∀ block, ¬HasBlock literalCodec damagedBlock 0 block := by
    intro block
    rw [← readBlockFromDisk_eq_ok_iff, hread]
    exact nofun
  refine (neverPanics_iff withinBuffer_literalCodec 1 _).mpr (Or.inr ⟨damagedBlock, ?_, ?_⟩)
  · exact openFile_eq_ok_iff.mp rfl
  · refine {
      bloom := Or.inl (by decide), lookup := fun key _ hidx => ?_, blocks := fun idx h => ?_ }
    · rw [Nat.lt_one_iff.mp hidx]
      exact ⟨hshort, fun block h => absurd h (hblock block)⟩
    · rw [Nat.lt_one_iff.mp h.lt]
      exact ⟨hshort, fun block h => absurd h (hblock block)⟩

/-- A footer that points behind itself. -/
def bareFooter : Bytes := toLE 8 12 ++ toLE 4 magic

/-- The metadata is then shorter than the footer that is to be cut off. -/
theorem not_neverPanics_bareFooter : ¬NeverPanics literalCodec 1 bareFooter := by
  rintro ⟨hopen, -⟩
  exact hopen rfl

end TableFile
end Crabstash

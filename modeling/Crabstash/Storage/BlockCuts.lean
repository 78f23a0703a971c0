import Crabstash.Storage.SSTable

/-!
# Where a table is cut

`SSTableBuilder::add` ends a block with the entry that brings its encoding to `BLOCK_SIZE` bytes,
so the blocks are a function of the lengths of the entries alone (`cut`).  `finish` writes what is
left as one more block.

The two paths record different last keys (`blockMetas_build`).  A block that is full is flushed by
`add`, which passes on the key it has just added.  The block that `finish` writes gets the last key
of the block before it, and the empty key if there is none.
-/

namespace Crabstash

namespace SSTableBuilder

/-- The full blocks, and what is left over, when entries are added to a block that has `current`. -/
def cut : List Entry → List Entry → List (List Entry) × List Entry
  | current, [] => ([], current)
  | current, e :: rest =>
      let block := current ++ [e]
      if blockSize ≤ blockLen block then (block :: (cut [] rest).1, (cut [] rest).2)
      else cut block rest

/-- The blocks of the table: those that are full, and what is left over. -/
def blocksOf (entries : List Entry) : List (List Entry) :=
  (cut [] entries).1 ++ if (cut [] entries).2 = [] then [] else [(cut [] entries).2]

/-- The first key of a block, and the empty one of a block without entries. -/
def firstKeyOf (block : List Entry) : Bytes := (block.head?.map Prod.fst).getD []

/-- The last key of a block, and the empty one of a block without entries. -/
def lastKeyOf (block : List Entry) : Bytes := (block.getLast?.map Prod.fst).getD []

/-- The last key that is recorded last: that of the last full block. -/
def recordedLastKey (entries : List Entry) : Bytes :=
  ((cut [] entries).1.getLast?.map lastKeyOf).getD []

theorem cut_cons_of_full {current rest : List Entry} {e : Entry}
    (hfull : blockSize ≤ blockLen (current ++ [e])) :
    cut current (e :: rest) = ((current ++ [e]) :: (cut [] rest).1, (cut [] rest).2) := by
  rw [cut, if_pos hfull]

theorem cut_cons_of_not_full {current rest : List Entry} {e : Entry}
    (hroom : ¬blockSize ≤ blockLen (current ++ [e])) :
    cut current (e :: rest) = cut (current ++ [e]) rest := by
  rw [cut, if_neg hroom]

theorem flatten_cut (current entries : List Entry) :
    (cut current entries).1.flatten ++ (cut current entries).2 = current ++ entries := by
  induction entries generalizing current with
  | nil => simp [cut]
  | cons e rest ih =>
      by_cases hfull : blockSize ≤ blockLen (current ++ [e])
      · have hrest := ih []
        rw [cut_cons_of_full hfull, List.flatten_cons, List.append_assoc, hrest, List.nil_append,
          ← List.append_cons]
      · rw [cut_cons_of_not_full hfull, ih, List.append_assoc, List.singleton_append]

theorem ne_nil_of_mem_cut {current entries block : List Entry}
    (hblock : block ∈ (cut current entries).1) : block ≠ [] := by
  induction entries generalizing current with
  | nil => exact absurd hblock List.not_mem_nil
  | cons e rest ih =>
      by_cases hfull : blockSize ≤ blockLen (current ++ [e])
      · rw [cut_cons_of_full hfull] at hblock
        rcases List.mem_cons.mp hblock with rfl | hblock
        · exact List.append_ne_nil_of_right_ne_nil current (List.cons_ne_nil e [])
        · exact ih hblock
      · rw [cut_cons_of_not_full hfull] at hblock
        exact ih hblock

theorem flatten_blocksOf (entries : List Entry) : (blocksOf entries).flatten = entries := by
  have hcut := flatten_cut [] entries
  rw [List.nil_append] at hcut
  conv_rhs => rw [← hcut]
  unfold blocksOf
  split
  · next hleft => rw [hleft, List.append_nil, List.append_nil]
  · rw [List.flatten_append, List.flatten_singleton]

/-! ## What the builder records -/

/-- The builder after `add` for each entry. -/
theorem foldl_add {b : SSTableBuilder} (entries : List Entry)
    (hfirst : b.blockFirstKey = b.currentBlock.head?.map Prod.fst) :
    let b' := entries.foldl (fun b e => b.add e.1 e.2) b
    b'.blocks = b.blocks ++ (cut b.currentBlock entries).1 ∧
      b'.blockMetas = b.blockMetas ++
        (cut b.currentBlock entries).1.map (fun block => ⟨firstKeyOf block, lastKeyOf block⟩) ∧
      b'.currentBlock = (cut b.currentBlock entries).2 ∧
      b'.blockFirstKey = b'.currentBlock.head?.map Prod.fst := by
  induction entries generalizing b with
  | nil => simp [cut, hfirst]
  | cons e rest ih =>
      -- `first_key` is the key of the first entry in either case
      have hkey : b.blockFirstKey.or (some e.1) = (b.currentBlock ++ [e]).head?.map Prod.fst := by
        rw [hfirst]
        cases b.currentBlock <;> rfl
      by_cases hfull : blockSize ≤ blockLen (b.currentBlock ++ [e])
      · have hadd : b.add e.1 e.2 =
            { b with
              blocks := b.blocks ++ [b.currentBlock ++ [e]]
              blockMetas := b.blockMetas ++
                [⟨firstKeyOf (b.currentBlock ++ [e]), lastKeyOf (b.currentBlock ++ [e])⟩]
              blockFirstKey := none
              currentBlock := []
              bloom := b.bloom.insert e.1
              numKeys := b.numKeys + 1 } := by
          simp [add, flushBlock, hfull, hkey, firstKeyOf, lastKeyOf]
        obtain ⟨hblocks, hmetas, hcurrent, hstart⟩ := ih (b := b.add e.1 e.2) (by rw [hadd]; rfl)
        rw [List.foldl_cons, cut_cons_of_full hfull]
        refine ⟨?_, ?_, ?_, hstart⟩
        · rw [hblocks, hadd, List.append_assoc, List.singleton_append]
        · rw [hmetas, hadd, List.map_cons, List.append_assoc, List.singleton_append]
        · rw [hcurrent, hadd]
      · have hadd : b.add e.1 e.2 =
            { b with
              bloom := b.bloom.insert e.1
              blockFirstKey := (b.currentBlock ++ [e]).head?.map Prod.fst
              currentBlock := b.currentBlock ++ [e]
              numKeys := b.numKeys + 1 } := by
          simp [add, hfull, hkey]
        obtain ⟨hblocks, hmetas, hcurrent, hstart⟩ := ih (b := b.add e.1 e.2) (by rw [hadd])
        rw [List.foldl_cons, cut_cons_of_not_full hfull]
        refine ⟨?_, ?_, ?_, hstart⟩
        · rw [hblocks, hadd]
        · rw [hmetas, hadd]
        · rw [hcurrent, hadd]

section Build

variable (id estimatedKeys : ℕ) (entries : List Entry)

theorem blocks_build : (build id estimatedKeys entries).blocks = blocksOf entries := by
  obtain ⟨hblocks, -, hcurrent, -⟩ := foldl_add (b := new id estimatedKeys) entries rfl
  have hblocks : _ = (cut [] entries).1 := hblocks
  have hcurrent : _ = (cut [] entries).2 := hcurrent
  unfold build finish flushBlock blocksOf
  simp only [List.isEmpty_iff]
  rw [apply_ite SSTableBuilder.blocks, hblocks, hcurrent]
  split
  · rw [List.append_nil]
  · rfl

/-- The metadata of the blocks: every full block has its own last key, the block that `finish`
writes has the one recorded before it. -/
theorem blockMetas_build : (build id estimatedKeys entries).blockMetas =
    (cut [] entries).1.map (fun block => ⟨firstKeyOf block, lastKeyOf block⟩) ++
      if (cut [] entries).2 = [] then []
      else [⟨firstKeyOf (cut [] entries).2, recordedLastKey entries⟩] := by
  obtain ⟨-, hmetas, hcurrent, hstart⟩ := foldl_add (b := new id estimatedKeys) entries rfl
  have hmetas : _ = (cut [] entries).1.map fun block =>
    (⟨firstKeyOf block, lastKeyOf block⟩ : BlockMeta) := hmetas
  have hcurrent : _ = (cut [] entries).2 := hcurrent
  have hrecorded : (((cut [] entries).1.map fun block =>
      (⟨firstKeyOf block, lastKeyOf block⟩ : BlockMeta)).getLast?.map BlockMeta.lastKey).getD [] =
      recordedLastKey entries := by
    rw [List.getLast?_map, Option.map_map]
    rfl
  unfold build finish flushBlock
  simp only [List.isEmpty_iff]
  rw [apply_ite SSTableBuilder.blockMetas, hmetas, hstart, hcurrent, hrecorded]
  split
  · rw [List.append_nil]
  · rfl

end Build

end SSTableBuilder
end Crabstash

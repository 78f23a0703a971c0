import Crabstash.Storage.RangeScans

/-!
# Prefix scans

`prefix_scan` of the database, which scans the range that begins at the prefix and ends at
`prefix_end_bound`.  The loop there goes over the prefix from its end: a byte `0xFF` cannot
be raised and is left out of the bound, the first other byte is raised, and when there is
none the range has no end.

The range has exactly the keys with the prefix (`prefix_iff`), so that a prefix scan has of
these keys what a scan from the prefix has, and of no other key anything
(`Lsm.exists_prefixScan`).
-/

namespace Crabstash

open StorageIterator

/-- The loop of `prefix_end_bound`, with `i` bytes still to be looked at. -/
def prefixEndBoundLoop (last : Bytes) : ℕ → Bound
  | 0 => .unbounded
  | i + 1 =>
      match last[i]? with
      | none => .unbounded
      | some b =>
          if b < 0xFF then .excluded ((last.set i (b + 1)).take (i + 1))
          else prefixEndBoundLoop last i

/-- `prefix_end_bound`: the last byte that can be raised is raised; without one there is no
end. -/
def prefixEndBound (pre : Bytes) : Bound := prefixEndBoundLoop pre pre.length

/-- The bounds that `prefix_scan` gives to `scan_range`. -/
def prefixRange (pre : Bytes) : Bound × Bound := (.included pre, prefixEndBound pre)

/-- `prefix_scan`. -/
def Lsm.prefixScan (s : Lsm) (pre : Bytes) : Except Error LsmIterator :=
  s.scanRange (prefixRange pre).1 (prefixRange pre).2

/-! ## The end of the range -/

theorem isMax_byte {b : UInt8} (h : ¬ b < 0xFF) : IsMax b := by
  intro c _
  have hmax : ¬ b.toNat < 255 := h
  have hbound := c.toNat_lt
  show c.toNat ≤ b.toNat
  omega

theorem covBy_succ_byte {b : UInt8} (h : b < 0xFF) : b ⋖ b + 1 := by
  have hlt : b.toNat < 255 := h
  have hsucc : (b + 1).toNat = b.toNat + 1 := by
    rw [UInt8.toNat_add, show (1 : UInt8).toNat = 1 from rfl]
    omega
  constructor
  · show b.toNat < (b + 1).toNat
    omega
  · intro c hbc hcb
    have hbc : b.toNat < c.toNat := hbc
    have hcb : c.toNat < (b + 1).toNat := hcb
    omega

/-- Raising a byte and cutting off what comes after it. -/
theorem take_set_succ {bytes : Bytes} {i : ℕ} {b : UInt8} (hi : i < bytes.length) :
    (bytes.set i b).take (i + 1) = bytes.take i ++ [b] := by
  rw [List.take_add_one, List.getElem?_set_self hi, List.take_set_of_le le_rfl]
  rfl

/-- The bytes that the loop has passed are all `0xFF`. -/
theorem prefix_iff_loop {pre : Bytes} (key : Bytes) {i : ℕ} (hi : i ≤ pre.length)
    (hpassed : ∀ b ∈ pre.drop i, IsMax b) :
    pre <+: key ↔ pre ≤ key ∧ (prefixEndBoundLoop pre i).admits key = true := by
  induction i with
  | zero =>
      rw [List.drop_zero] at hpassed
      rw [LexOrder.prefix_iff_le hpassed]
      exact ⟨fun hle => ⟨hle, rfl⟩, And.left⟩
  | succ i ih =>
      have hlt : i < pre.length := hi
      rw [prefixEndBoundLoop, List.getElem?_eq_getElem hlt]
      simp only
      split
      · next hraise =>
          have hsplit : pre.take i ++ pre[i] :: pre.drop (i + 1) = pre := by
            rw [← List.drop_eq_getElem_cons hlt, List.take_append_drop]
          have hspec := LexOrder.prefix_iff_le_and_lt (p := pre.take i) (k := key)
            (covBy_succ_byte hraise) hpassed
          rw [hsplit] at hspec
          rw [hspec, take_set_succ hlt, Bound.admits, decide_eq_true_eq]
      · next hmax =>
          apply ih hlt.le
          rw [List.drop_eq_getElem_cons hlt, List.forall_mem_cons]
          exact ⟨isMax_byte hmax, hpassed⟩

theorem prefix_iff_admits (pre key : Bytes) :
    pre <+: key ↔ pre ≤ key ∧ (prefixEndBound pre).admits key = true := by
  apply prefix_iff_loop key le_rfl
  simp

theorem prefix_within_iff (pre key : Bytes) :
    Within (prefixRange pre).1 (prefixRange pre).2 key ↔ pre <+: key := by
  rw [prefix_iff_admits, prefixRange, Within, Bound.admitsFrom, decide_eq_true_eq]

/-- A key has the prefix if and only if it is at or above the prefix and below the end bound, so
that the range of `prefix_scan` has exactly the keys with the prefix. -/
theorem prefix_iff (pre key : Bytes) :
    (pre <+: key ↔ pre ≤ key ∧ (prefixEndBound pre).admits key = true) ∧
      (Within (prefixRange pre).1 (prefixRange pre).2 key ↔ pre <+: key) :=
  ⟨prefix_iff_admits pre key, prefix_within_iff pre key⟩

/-- The bytes `0xFF` at the end do not come into the bound. -/
example : prefixEndBound [97, 0xFF, 0xFF] = .excluded [98] := by decide

/-- A prefix scan has of the keys with the prefix what its merge has, and of other keys
nothing. -/
theorem Lsm.exists_prefixScan {s : Lsm} (hsound : ∀ level, ∀ t ∈ s.levels level, t.Sound)
    (pre : Bytes) : ∃ ranged part, s.prefixScan pre = .ok ranged ∧ Yields ranged part ∧
      Sorted part ∧ ∀ key, allOf key part =
        if pre <+: key then s.scannedOf (some pre) key else [] := by
  obtain ⟨merged, hmerges⟩ := Lsm.exists_merges hsound (some pre)
  obtain ⟨ranged, part, hscan, hyields, hsorted, hallOf⟩ :=
    hmerges.exists_ranged (prefixRange pre).1 (prefixRange pre).2
  refine ⟨ranged, part, hscan, hyields, hsorted, fun key => ?_⟩
  rw [hallOf key]
  exact if_congr (prefix_within_iff pre key) rfl rfl

end Crabstash

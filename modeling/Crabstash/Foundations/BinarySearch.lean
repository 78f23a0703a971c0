import Mathlib.Data.List.Basic
import Mathlib.Order.Basic

/-!
# Binary search over a slice

`slice::binary_search_by` of the Rust standard library: the slice is probed at
the middle of a shrinking window, the comparison tells on which side to go on,
and the answer is `Ok` of a matching position or `Err` of the insertion
position.  When several elements match, the loop does not stop at the first it
meets, and what it returns is the *last* of them.

That last fact is what callers with repeated keys depend on, so it is part of
the result here: on a slice whose elements not greater than the target form an
initial segment of length `c` (`Segment`), the search ends on position `c - 1`
(`probe_eq`), and `binarySearchBy_eq_ok`, `binarySearchBy_eq_error` read the
answer off that position.
-/

namespace Crabstash.BinarySearch

variable {α : Type*}

/-- The loop of `binary_search_by`: the window is `size` elements from `base`
on.  A round at least halves the window, so `fuel = xs.length` is enough. -/
def probe (xs : List α) (f : α → Ordering) : ℕ → ℕ → ℕ → ℕ
  | 0, _, base => base
  | fuel + 1, size, base =>
      if size ≤ 1 then base
      else
        let half := size / 2
        let mid := base + half
        match xs[mid]?.map f with
        | some .gt => probe xs f fuel (size - half) base
        | _ => probe xs f fuel (size - half) mid

/-- `slice::binary_search_by`. -/
def binarySearchBy (xs : List α) (f : α → Ordering) : Except ℕ ℕ :=
  let base := probe xs f xs.length xs.length 0
  match xs[base]?.map f with
  | none => .error 0
  | some .eq => .ok base
  | some .lt => .error (base + 1)
  | some .gt => .error base

theorem probe_map {β : Type*} (g : β → α) (xs : List β) (f : α → Ordering) (fuel size base : ℕ) :
    probe (xs.map g) f fuel size base = probe xs (fun x => f (g x)) fuel size base := by
  induction fuel generalizing size base with
  | zero => rfl
  | succ fuel ih =>
      have hmid : (xs.map g)[base + size / 2]?.map f =
          xs[base + size / 2]?.map fun x => f (g x) := by
        rw [List.getElem?_map, Option.map_map]
        rfl
      simp only [probe, hmid, ih]

/-- Searching for what the elements are mapped to. -/
theorem binarySearchBy_map {β : Type*} (g : β → α) (xs : List β) (f : α → Ordering) :
    binarySearchBy (xs.map g) f = binarySearchBy xs fun x => f (g x) := by
  simp only [binarySearchBy, probe_map, List.length_map, List.getElem?_map, Option.map_map]
  rfl

/-- The elements of `xs` that `f` does not find greater are exactly the first `c`. -/
structure Segment (xs : List α) (f : α → Ordering) (c : ℕ) : Prop where
  le_length : c ≤ xs.length
  ne_gt : ∀ i (h : i < xs.length), i < c → f xs[i] ≠ .gt
  gt : ∀ i (h : i < xs.length), c ≤ i → f xs[i] = .gt

theorem probe_spec {xs : List α} {f : α → Ordering} {c : ℕ} (hseg : Segment xs f c)
    (fuel size base : ℕ) (hfuel : size ≤ fuel + 1) (hsize : 0 < size)
    (hroom : base + size ≤ xs.length) (hlow : base = 0 ∨ base < c) (hhigh : c ≤ base + size) :
    probe xs f fuel size base = c - 1 := by
  induction fuel generalizing size base with
  | zero =>
      have : size = 1 := by omega
      rw [probe]
      omega
  | succ fuel ih =>
      rw [probe]
      by_cases hone : size ≤ 1
      · rw [if_pos hone]
        omega
      · rw [if_neg hone]
        have hmid : base + size / 2 < xs.length := by omega
        simp only [List.getElem?_eq_getElem hmid, Option.map_some]
        by_cases hc : c ≤ base + size / 2
        · rw [hseg.gt _ hmid hc]
          exact ih (size - size / 2) base (by omega) (by omega) (by omega) hlow (by omega)
        · have hne := hseg.ne_gt _ hmid (Nat.lt_of_not_le hc)
          have hstep := ih (size - size / 2) (base + size / 2) (by omega) (by omega) (by omega)
            (Or.inr (Nat.lt_of_not_le hc)) (by omega)
          cases hf : f xs[base + size / 2] with
          | gt => exact absurd hf hne
          | lt => exact hstep
          | eq => exact hstep

/-- The search ends on the last element that is not greater than the target. -/
theorem probe_eq {xs : List α} {f : α → Ordering} {c : ℕ} (hseg : Segment xs f c) :
    probe xs f xs.length xs.length 0 = c - 1 := by
  rcases Nat.eq_zero_or_pos xs.length with hnil | hpos
  · have hc := hseg.le_length
    rw [hnil]
    show 0 = c - 1
    omega
  · have hc := hseg.le_length
    exact probe_spec hseg _ _ 0 (by omega) hpos (by omega) (Or.inl rfl) (by omega)

/-- A match is reported at the last matching position. -/
theorem binarySearchBy_eq_ok {xs : List α} {f : α → Ordering} {c : ℕ} (hseg : Segment xs f (c + 1))
    (hc : c < xs.length) (heq : f xs[c] = .eq) : binarySearchBy xs f = .ok c := by
  simp [binarySearchBy, probe_eq hseg, List.getElem?_eq_getElem hc, heq]

/-- Without a match the insertion position is reported. -/
theorem binarySearchBy_eq_error {xs : List α} {f : α → Ordering} {c : ℕ} (hseg : Segment xs f c)
    (hne : ∀ (h : c - 1 < xs.length), f xs[c - 1] ≠ .eq) : binarySearchBy xs f = .error c := by
  have hle := hseg.le_length
  by_cases hnil : xs.length = 0
  · have hc : c = 0 := by omega
    have hxs : xs = [] := List.length_eq_zero_iff.mp hnil
    subst hxs hc
    rfl
  · have hlt : c - 1 < xs.length := by omega
    simp only [binarySearchBy, probe_eq hseg, List.getElem?_eq_getElem hlt, Option.map_some]
    by_cases hpos : c = 0
    · subst hpos
      rw [hseg.gt _ hlt (Nat.zero_le _)]
    · have hngt := hseg.ne_gt _ hlt (by omega)
      cases hf : f xs[c - 1] with
      | lt => exact congrArg Except.error (by omega)
      | eq => exact absurd hf (hne hlt)
      | gt => exact absurd hf hngt

/-- The position the search reports, or the one before the insertion position. -/
theorem floor_binarySearchBy {xs : List α} {f : α → Ordering} {c : ℕ} (hseg : Segment xs f c) :
    (match binarySearchBy xs f with
      | .ok idx => idx
      | .error idx => idx - 1) = c - 1 := by
  by_cases heq : ∃ h : c - 1 < xs.length, f xs[c - 1] = .eq
  · obtain ⟨hlt, heq⟩ := heq
    have hpos : c ≠ 0 := by
      intro hzero
      have hgt := hseg.gt (c - 1) hlt (by omega)
      rw [heq] at hgt
      contradiction
    obtain ⟨n, rfl⟩ := Nat.exists_eq_succ_of_ne_zero hpos
    rw [binarySearchBy_eq_ok hseg hlt heq]
    rfl
  · rw [binarySearchBy_eq_error hseg fun hlt h => heq ⟨hlt, h⟩]

/-- That position is in the slice, sorted or not. -/
theorem floor_lt_length {xs : List α} (hxs : 0 < xs.length) (f : α → Ordering) :
    (match binarySearchBy xs f with
      | .ok idx => idx
      | .error idx => idx - 1) < xs.length := by
  unfold binarySearchBy
  simp only
  generalize probe xs f xs.length xs.length 0 = base
  by_cases hbase : base < xs.length
  · rw [List.getElem?_eq_getElem hbase, Option.map_some]
    cases f xs[base] with
    | lt => exact hbase
    | eq => exact hbase
    | gt => exact Nat.lt_of_le_of_lt (Nat.sub_le base 1) hbase
  · rw [List.getElem?_eq_none (Nat.not_lt.mp hbase)]
    exact hxs

/-- On a sorted slice the elements that are not greater do form an initial segment. -/
theorem exists_segment {xs : List α} {f : α → Ordering}
    (hsorted : xs.Pairwise fun a b => f a = .gt → f b = .gt) : ∃ c, Segment xs f c := by
  induction xs with
  | nil => exact ⟨0, Nat.le_refl 0, fun i h => absurd h (Nat.not_lt_zero i),
      fun i h => absurd h (Nat.not_lt_zero i)⟩
  | cons x rest ih =>
      have hrest := List.pairwise_cons.mp hsorted
      by_cases hx : f x = .gt
      · refine ⟨0, Nat.zero_le _, fun i _ hi => absurd hi (Nat.not_lt_zero i), fun i h _ => ?_⟩
        cases i with
        | zero => exact hx
        | succ i => exact hrest.1 _ (List.getElem_mem _) hx
      · obtain ⟨c, hseg⟩ := ih hrest.2
        refine ⟨c + 1, Nat.succ_le_succ hseg.le_length, fun i h hi => ?_, fun i h hi => ?_⟩
        · cases i with
          | zero => exact hx
          | succ i => exact hseg.ne_gt i (Nat.lt_of_succ_lt_succ h) (Nat.lt_of_succ_lt_succ hi)
        · cases i with
          | zero => exact absurd hi (Nat.not_succ_le_zero c)
          | succ i => exact hseg.gt i (Nat.lt_of_succ_lt_succ h) (Nat.le_of_succ_le_succ hi)

end Crabstash.BinarySearch

import Mathlib.Algebra.Order.Group.Nat
import Mathlib.Tactic.Ring

/-!
# Numbers as bytes

A number is written with a fixed width, the lowest byte first, and what does not fit is cut
off.  So what is read back is the number modulo the size of the field (`ofLE_toLE`).

A reader takes fields off the front of a buffer; `splitAt?` is the step of such a reader,
and fails where the buffer is too short.
-/

namespace Crabstash.LittleEndian

/-- The last bytes of a number, the lowest first. -/
def toLE : ℕ → ℕ → List UInt8
  | 0, _ => []
  | width + 1, n => UInt8.ofNat n :: toLE width (n / 256)

/-- The number that the bytes stand for, the lowest first. -/
def ofLE : List UInt8 → ℕ
  | [] => 0
  | b :: bs => b.toNat + 256 * ofLE bs

@[simp] theorem length_toLE (width n : ℕ) : (toLE width n).length = width := by
  induction width generalizing n with
  | zero => rfl
  | succ width ih => simp [toLE, ih]

theorem ofLE_toLE (width n : ℕ) : ofLE (toLE width n) = n % 256 ^ width := by
  induction width generalizing n with
  | zero => simp [toLE, ofLE, Nat.mod_one]
  | succ width ih =>
      calc ofLE (toLE (width + 1) n)
          = n % 256 + 256 * (n / 256 % 256 ^ width) := by simp [toLE, ofLE, ih]
        _ = n % (256 * 256 ^ width) := Nat.mod_mul.symm
        _ = n % 256 ^ (width + 1) := by rw [pow_succ']

theorem ofLE_toLE_of_lt {width n : ℕ} (h : n < 256 ^ width) : ofLE (toLE width n) = n := by
  rw [ofLE_toLE, Nat.mod_eq_of_lt h]

theorem toLE_ofLE (bytes : List UInt8) : toLE bytes.length (ofLE bytes) = bytes := by
  induction bytes with
  | nil => rfl
  | cons b bs ih =>
      have hdiv : (b.toNat + 256 * ofLE bs) / 256 = ofLE bs := by
        have := b.toNat_lt
        omega
      have hmod : UInt8.ofNat (b.toNat + 256 * ofLE bs) = b := by
        apply UInt8.toNat_inj.mp
        have := b.toNat_lt
        simp
      rw [List.length_cons, ofLE, toLE, hdiv, hmod, ih]

theorem ofLE_lt (bytes : List UInt8) : ofLE bytes < 256 ^ bytes.length := by
  rw [← toLE_ofLE bytes, ofLE_toLE, length_toLE]
  exact Nat.mod_lt _ (Nat.pow_pos (by decide))

/-! ## Reading -/

/-- The first bytes of a buffer and the rest. -/
def splitAt? {α : Type*} (n : ℕ) (buffer : List α) : Option (List α × List α) :=
  if n ≤ buffer.length then some (buffer.take n, buffer.drop n) else none

theorem splitAt?_append {α : Type*} {n : ℕ} {field : List α} (h : field.length = n)
    (rest : List α) : splitAt? n (field ++ rest) = some (field, rest) := by
  subst h
  simp [splitAt?]

theorem splitAt?_length {α : Type*} (field : List α) :
    splitAt? field.length field = some (field, []) := by
  simp [splitAt?]

theorem splitAt?_eq_some {α : Type*} {n : ℕ} {buffer : List α} {e : List α × List α}
    (h : splitAt? n buffer = some e) : buffer = e.1 ++ e.2 ∧ e.1.length = n := by
  rw [splitAt?] at h
  split at h
  · next hle =>
      obtain rfl := Option.some.inj h
      exact ⟨(List.take_append_drop n buffer).symm, List.length_take_of_le hle⟩
  · contradiction

theorem splitAt?_eq_some_iff {α : Type*} {n : ℕ} {buffer field rest : List α} :
    splitAt? n buffer = some (field, rest) ↔ field.length = n ∧ buffer = field ++ rest := by
  constructor
  · intro h
    exact (splitAt?_eq_some h).symm
  · rintro ⟨hlength, rfl⟩
    exact splitAt?_append hlength rest

/-- A number of the given width off the front of a buffer. -/
def readLE (width : ℕ) (buffer : List UInt8) : Option (ℕ × List UInt8) :=
  (splitAt? width buffer).map fun e => (ofLE e.1, e.2)

theorem readLE_of_le {width : ℕ} {buffer : List UInt8} (h : width ≤ buffer.length) :
    readLE width buffer = some (ofLE (buffer.take width), buffer.drop width) := by
  rw [readLE, splitAt?, if_pos h]
  rfl

theorem readLE_of_lt {width : ℕ} {buffer : List UInt8} (h : buffer.length < width) :
    readLE width buffer = none := by
  rw [readLE, splitAt?, if_neg (not_le.mpr h)]
  rfl

theorem readLE_toLE {width n : ℕ} (h : n < 256 ^ width) (rest : List UInt8) :
    readLE width (toLE width n ++ rest) = some (n, rest) := by
  rw [readLE, splitAt?_append (length_toLE width n), Option.map_some, ofLE_toLE_of_lt h]

/-- What is read off is what the buffer begins with. -/
theorem readLE_eq_some_iff {width n : ℕ} {buffer rest : List UInt8} :
    readLE width buffer = some (n, rest) ↔ n < 256 ^ width ∧ buffer = toLE width n ++ rest := by
  constructor
  · intro h
    rw [readLE, Option.map_eq_some_iff] at h
    obtain ⟨⟨field, rest'⟩, hsplit, heq⟩ := h
    obtain ⟨rfl, rfl⟩ := Prod.mk.inj heq
    obtain ⟨rfl, rfl⟩ := splitAt?_eq_some_iff.mp hsplit
    exact ⟨ofLE_lt field, by rw [toLE_ofLE]⟩
  · rintro ⟨hlt, rfl⟩
    exact readLE_toLE hlt rest

end Crabstash.LittleEndian

import Mathlib.Data.List.Basic

/-!
# Numbers and lines in text

Text is a list of characters.  A number is written in decimal and read back digit by
digit; a text is read line by line, where the last line need not be ended.  What is
written as a sequence of ended lines is read as that sequence (`lines_flatMap`).
-/

namespace Crabstash.Text

/-! ## Numbers -/

/-- The decimal digits of a number. -/
def decimal (n : ℕ) : List Char := Nat.toDigits 10 n

/-- A number, with an optional sign in front as `str::parse` takes it. -/
def parseDecimal (text : List Char) : Option ℕ :=
  let digits := match text with
    | '+' :: rest => rest
    | text => text
  if digits ≠ [] ∧ digits.all Char.isDigit then some (Nat.ofDigitChars 10 digits 0) else none

theorem isDigit_of_mem_decimal {n : ℕ} {c : Char} (hc : c ∈ decimal n) : c.isDigit = true :=
  Nat.isDigit_of_mem_toDigits (by decide) (by decide) hc

theorem decimal_ne_nil (n : ℕ) : decimal n ≠ [] := Nat.toDigits_ne_nil

/-- A character that is no digit is not in a number. -/
theorem notMem_decimal {c : Char} (hc : c.isDigit = false) (n : ℕ) : c ∉ decimal n := by
  intro hmem
  rw [isDigit_of_mem_decimal hmem] at hc
  contradiction

/-- A text of digits is a number without a sign. -/
theorem parseDecimal_of_isDigit {text : List Char} (hne : text ≠ [])
    (hdigits : ∀ c ∈ text, c.isDigit = true) :
    parseDecimal text = some (Nat.ofDigitChars 10 text 0) := by
  cases text with
  | nil => contradiction
  | cons c rest =>
      have hunsigned : (match c :: rest with
          | '+' :: rest => rest
          | text => text) = c :: rest := by
        split
        · next rest' hplus =>
            obtain rfl := (List.cons.inj hplus).1
            exact absurd (hdigits '+' (List.mem_cons_self ..)) (by decide)
        · rfl
      unfold parseDecimal
      simp only [hunsigned]
      exact if_pos ⟨hne, List.all_eq_true.mpr hdigits⟩

theorem parseDecimal_decimal (n : ℕ) : parseDecimal (decimal n) = some n := by
  rw [parseDecimal_of_isDigit (decimal_ne_nil n) fun c hc => isDigit_of_mem_decimal hc]
  exact congrArg some Nat.ofDigitChars_ten_toDigits

theorem parseDecimal_eq_none {text : List Char} {c : Char} (hmem : c ∈ text)
    (hdigit : c.isDigit = false) (hplus : c ≠ '+') : parseDecimal text = none := by
  unfold parseDecimal
  rw [if_neg]
  rintro ⟨-, hall⟩
  rw [List.all_eq_true] at hall
  split at hall
  · next rest =>
      have hrest := (List.mem_cons.mp hmem).resolve_left hplus
      rw [hall c hrest] at hdigit
      contradiction
  · rw [hall c hmem] at hdigit
    contradiction

/-- A number with at least so many digits. -/
def padded (width n : ℕ) : List Char :=
  List.replicate (width - (decimal n).length) '0' ++ decimal n

theorem ofDigitChars_replicate_zero (k : ℕ) (text : List Char) :
    Nat.ofDigitChars 10 (List.replicate k '0' ++ text) 0 = Nat.ofDigitChars 10 text 0 := by
  induction k with
  | zero => rfl
  | succ k ih => exact ih

theorem parseDecimal_padded (width n : ℕ) : parseDecimal (padded width n) = some n := by
  have hdigits : ∀ c ∈ padded width n, c.isDigit = true := by
    intro c hc
    rcases List.mem_append.mp hc with hc | hc
    · rw [List.eq_of_mem_replicate hc]
      rfl
    · exact isDigit_of_mem_decimal hc
  have hne : padded width n ≠ [] := fun h => decimal_ne_nil n (List.append_eq_nil_iff.mp h).2
  rw [parseDecimal_of_isDigit hne hdigits, padded, ofDigitChars_replicate_zero]
  exact congrArg some Nat.ofDigitChars_ten_toDigits

/-! ## Fields -/

/-- A prefix of fields ends inside one of them. -/
theorem prefix_intercalate {sep : Char} {fields : List (List Char)} {fragment : List Char}
    (hne : fields ≠ []) (hfragment : fragment <+: [sep].intercalate fields) :
    ∃ before field rest part, fields = before ++ field :: rest ∧ part <+: field ∧
      fragment = [sep].intercalate (before ++ [part]) := by
  induction fields generalizing fragment with
  | nil => contradiction
  | cons field rest ih =>
      cases rest with
      | nil =>
          rw [List.intercalate_singleton] at hfragment
          exact ⟨[], field, [], fragment, rfl, hfragment, List.intercalate_singleton.symm⟩
      | cons field' rest =>
          rw [List.intercalate_cons_cons, List.append_assoc] at hfragment
          rcases List.prefix_or_prefix_of_prefix hfragment (List.prefix_append field _) with
            hshort | ⟨behind, rfl⟩
          · exact ⟨[], field, field' :: rest, fragment, rfl, hshort,
              List.intercalate_singleton.symm⟩
          · rw [List.prefix_append_right_inj, List.singleton_append, List.prefix_cons_iff]
              at hfragment
            rcases hfragment with rfl | ⟨fragment, rfl, hfragment⟩
            · exact ⟨[], field, field' :: rest, field, rfl, List.prefix_rfl,
                (List.append_nil field).trans List.intercalate_singleton.symm⟩
            · obtain ⟨before, field'', rest', part, hfields, hpart, hshape⟩ :=
                ih (List.cons_ne_nil _ _) hfragment
              refine ⟨field :: before, field'', rest', part, ?_, hpart, ?_⟩
              · rw [hfields, List.cons_append]
              · have hbefore : before ++ [part] ≠ [] := by simp
                rw [hshape, List.cons_append, List.intercalate_cons_of_ne_nil hbefore]
                simp

/-- Fields behind a fragment: the first one is glued to its last part. -/
theorem intercalate_append (sep : Char) (before : List (List Char)) (part field : List Char)
    (rest : List (List Char)) :
    [sep].intercalate (before ++ [part]) ++ [sep].intercalate (field :: rest) =
      [sep].intercalate (before ++ (part ++ field) :: rest) := by
  induction before with
  | nil =>
      cases rest with
      | nil => simp
      | cons field' rest => simp [List.intercalate_cons_cons]
  | cons first before ih =>
      have hbefore : before ++ [part] ≠ [] := by simp
      have hglued : before ++ (part ++ field) :: rest ≠ [] := by simp
      rw [List.cons_append, List.cons_append, List.intercalate_cons_of_ne_nil hbefore,
        List.intercalate_cons_of_ne_nil hglued, ← ih]
      simp

/-! ## Lines -/

/-- The lines of a text; what follows the last line end is a line if it is not empty. -/
def lines (text : List Char) : List (List Char) :=
  let parts := text.splitOn '\n'
  if parts.getLast? = some [] then parts.dropLast else parts

theorem splitOn_flatMap {ls : List (List Char)} (hls : ∀ l ∈ ls, '\n' ∉ l) :
    (ls.flatMap fun l => l ++ ['\n']).splitOn '\n' = ls ++ [[]] := by
  induction ls with
  | nil => rfl
  | cons l rest ih =>
      rw [List.forall_mem_cons] at hls
      rw [List.flatMap_cons, List.append_assoc, List.singleton_append,
        List.splitOn_append_cons_self_of_not_mem hls.1, ih hls.2, List.cons_append]

/-- Ended lines are read as they were written. -/
theorem lines_flatMap {ls : List (List Char)} (hls : ∀ l ∈ ls, '\n' ∉ l) :
    lines (ls.flatMap fun l => l ++ ['\n']) = ls := by
  unfold lines
  rw [splitOn_flatMap hls]
  simp

end Crabstash.Text

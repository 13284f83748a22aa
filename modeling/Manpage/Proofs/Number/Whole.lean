import Manpage.Proofs.Number.Truncated

/-!
# Whole numbers as arguments

A whole number is written as its decimal numeral, and read back in double precision. Up to 2^53 that
is the number itself, and a positive number is never read as nothing.

## Main results

* `Manpage.Numeral.ofText?_ofNat` — the numeral of a whole number.
* `Manpage.Numeral.toInt?_whole_of_le` — numbers up to 2^53 are read exactly, whatever their sign.
* `Manpage.Numeral.toInt?_whole_of_lt` — numbers below 2^53 are read exactly.
* `Manpage.Numeral.pos_of_toInt?_whole` — positive numbers are read as positive ones.
-/

namespace Manpage

/-! ## Decimal numerals -/

namespace Text

/-- The digits of the first script stand in one row. -/
theorem toNat_of_isDigit {c : Char} (h : c.isDigit = true) : 48 ≤ c.toNat ∧ c.toNat ≤ 57 := by
  simp only [Char.isDigit, Bool.and_eq_true, decide_eq_true_eq] at h
  exact h

/-- The value of a digit of the first script. It is found in the first row of the table of digits.
-/
theorem digitValue?_of_isDigit {c : Char} (h : c.isDigit = true) :
    digitValue? c = some (c.toNat - '0'.toNat) := by
  have hc := toNat_of_isDigit h
  have hrow : (48 ≤ c.toNat && c.toNat < 48 + 10) = true := by
    simp only [Bool.and_eq_true, decide_eq_true_eq]
    omega
  have hfind : digitZeros.find? (fun base => base ≤ c.toNat && c.toNat < base + 10) = some 48 := by
    rw [digitZeros]
    exact List.find?_cons_of_pos hrow
  rw [digitValue?, hfind]
  rfl

/-- A row of digits is read to its end. -/
theorem spanDigits_of_isDigit {t : Text} (h : ∀ c ∈ t, c.isDigit = true) :
    spanDigits t = (t.map fun c => c.toNat - '0'.toNat, []) := by
  induction t with
  | nil => rfl
  | cons c t ih =>
    rw [spanDigits, digitValue?_of_isDigit (h c List.mem_cons_self),
      ih fun d hd => h d (List.mem_cons_of_mem c hd)]
    rfl

/-- The number that digits denote. -/
theorem digitsValue_map (t : Text) :
    digitsValue (t.map fun c => c.toNat - '0'.toNat) = Nat.ofDigitChars 10 t 0 := by
  rw [digitsValue, List.foldl_map, Nat.ofDigitChars_eq_foldl]

/-- A decimal numeral holds digits only. -/
theorem isDigit_of_mem_ofNat {n : Nat} {c : Char} (h : c ∈ ofNat n) : c.isDigit = true :=
  Nat.isDigit_of_mem_toDigits (by decide) (by decide) h

end Text

namespace Numeral

/-- A numeral without a sign. -/
theorem splitSign_of_isDigit {t : Text} (h : ∀ c ∈ t, c.isDigit = true) :
    splitSign t = (false, t) := by
  unfold splitSign
  split
  · exact absurd (h '-' List.mem_cons_self) (by decide)
  · exact absurd (h '+' List.mem_cons_self) (by decide)
  · rfl

/-- **The numeral of a whole number** denotes it. It is a row of digits without a sign, a point or a
unit. -/
theorem ofText?_ofNat (n : Nat) : ofText? (Text.ofNat n) = some ⟨false, n, 0⟩ := by
  have hdigits : ∀ c ∈ Text.ofNat n, c.isDigit = true := fun c hc => Text.isDigit_of_mem_ofNat hc
  have hne : Text.ofNat n ≠ [] := Nat.toDigits_ne_nil
  have hvalue : Text.digitsValue ((Text.ofNat n).map fun c => c.toNat - '0'.toNat) = n := by
    rw [Text.digitsValue_map]
    exact Nat.ofDigitChars_ten_toDigits
  rw [ofText?, splitSign_of_isDigit hdigits]
  simp only [unsigned?, Text.spanDigits_of_isDigit hdigits, hvalue]
  simp [hne, isUnit]

end Numeral

/-! ## Whole numbers in double precision -/

namespace Numeral

variable {n : Nat}

/-- A numeral without places stands for the whole number of its digits, with its sign. -/
theorem value_whole (negative : Bool) (n : Nat) :
    value ⟨negative, n, 0⟩ = ((if negative then -(n : Int) else n : Int) : Rat) := by
  cases negative <;> simp [value]

/-- **Whole numbers up to 2^53 are read exactly**, whatever their sign. -/
theorem toInt?_whole_of_le (negative : Bool) (h : n ≤ 2 ^ 53) :
    toInt? ⟨negative, n, 0⟩ = some (if negative then -(n : Int) else n) := by
  have hread := truncatesTo ⟨negative, n, 0⟩
  rw [value_whole] at hread
  refine hread.of_int ?_
  cases negative with
  | false => simpa using Int.ofNat_le.mpr h
  | true => simpa using Int.ofNat_le.mpr h

/-- **Numbers below 2^53 are read exactly.** -/
theorem toInt?_whole_of_lt (h : n < 2 ^ 53) : toInt? ⟨false, n, 0⟩ = some (n : Int) :=
  toInt?_whole_of_le false h.le

/-- **Positive numbers are read as positive ones**: they are no less than one. -/
theorem pos_of_toInt?_whole (hn : 0 < n) {k : Int} (h : toInt? ⟨false, n, 0⟩ = some k) : 0 < k := by
  have hone := truncatesTo ⟨false, 1, 0⟩
  rw [toInt?_whole_of_lt (by decide)] at hone
  have hread := truncatesTo ⟨false, n, 0⟩
  rw [h] at hread
  have hle : value ⟨false, 1, 0⟩ ≤ value ⟨false, n, 0⟩ := by
    simpa [value] using Nat.succ_le_of_lt hn
  exact hone.mono hread hle

end Numeral

end Manpage

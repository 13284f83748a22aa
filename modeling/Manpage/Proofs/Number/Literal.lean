import Manpage.Number.Numeral
import Mathlib.Algebra.Field.Rat
import Mathlib.Data.Nat.Digits.Defs
import Mathlib.Data.Rat.Cast.Defs
import Mathlib.Tactic.FieldSimp
import Mathlib.Tactic.Ring

/-!
# Numerals as they are written

A numeric argument is a sign or none, digits with an optional point and further digits, or a point
and digits, and a unit or none. The digits of any script count. A text is read as a numeral just
where it is written so, and the numeral denotes the number that the digits give by their places.

## Main definitions

* `Manpage.Literal` — a numeral as it is written, in its parts, with `Manpage.Literal.text`.
* `Manpage.Literal.value` — the rational number that it denotes.
* `Manpage.Numeral.value` — the rational number of a numeral that has been read.

## Main results

* `Manpage.Literal.ofText?_text` — what is written so is read.
* `Manpage.Literal.exists_of_ofText?` — what is read is written so.
* `Manpage.Literal.value_numeral` — the number is the one that was written.
-/

namespace Manpage

/-! ## Rows of digits -/

namespace Text

variable {t rest : Text} {c : Char}

/-- The value of a digit. -/
def digitValue (c : Char) : Nat :=
  (digitValue? c).getD 0

/-- The number that a row of digits denotes by their places, the last digit being that of the
units. -/
def placeValue (digits : Text) : Nat :=
  Nat.ofDigits 10 (digits.reverse.map digitValue)

/-- Digits before something else are read up to it. Reading stops at the first character that is no
digit. -/
theorem spanDigits_append {digits : Text} (h : ∀ c ∈ digits, isDigit c = true)
    (hrest : ∀ c ∈ rest.head?, isDigit c = false) :
    spanDigits (digits ++ rest) = (digits.map digitValue, rest) := by
  induction digits with
  | nil =>
    cases rest with
    | nil => rfl
    | cons c rest =>
      have hc : digitValue? c = none := by simpa [isDigit] using hrest c rfl
      rw [List.nil_append, spanDigits, hc]
      rfl
  | cons c digits ih =>
    obtain ⟨v, hv⟩ := Option.isSome_iff_exists.mp (h c List.mem_cons_self)
    rw [List.cons_append, spanDigits, hv, ih fun d hd => h d (List.mem_cons_of_mem c hd)]
    simp [digitValue, hv]

/-- What is read as digits are digits, up to something else. The converse of reading digits: each
text falls into these and the rest. -/
theorem exists_of_spanDigits (t : Text) : ∃ digits : Text, (∀ c ∈ digits, isDigit c = true) ∧
    t = digits ++ (spanDigits t).2 ∧ (spanDigits t).1 = digits.map digitValue := by
  induction t with
  | nil => exact ⟨[], by simp, rfl, rfl⟩
  | cons c t ih =>
    obtain ⟨digits, hdigits, htext, hvalues⟩ := ih
    cases hv : digitValue? c with
    | none => exact ⟨[], by simp, by simp [spanDigits, hv], by simp [spanDigits, hv]⟩
    | some v =>
      refine ⟨c :: digits, ?_, ?_, ?_⟩
      · intro d hd
        rcases List.mem_cons.mp hd with rfl | hd
        · simp [isDigit, hv]
        · exact hdigits d hd
      · simpa [spanDigits, hv] using htext
      · simpa [spanDigits, hv, digitValue] using hvalues

/-- Digits read one after another denote what they denote by their places. -/
theorem digitsValue_map_digitValue (digits : Text) :
    digitsValue (digits.map digitValue) = placeValue digits := by
  rw [digitsValue, placeValue, Nat.ofDigits_eq_foldr, List.map_reverse, List.foldr_reverse]
  congr 1
  funext value digit
  rw [Nat.cast_id]
  ring

/-- Digits behind others move those up by as many places: the value is that of the first, times a
power of ten, and that of the others. -/
theorem placeValue_append (digits more : Text) :
    placeValue (digits ++ more) = placeValue digits * 10 ^ more.length + placeValue more := by
  simp only [placeValue, List.reverse_append, List.map_append, Nat.ofDigits_append,
    List.length_map, List.length_reverse]
  ring

end Text

/-! ## Numerals -/

/-- The rational number that a numeral denotes. -/
def Numeral.value (x : Numeral) : Rat :=
  (if x.negative then -1 else 1) * (x.digits / 10 ^ x.places)

/-- A numeral as it is written: a sign or none, digits with an optional point and further digits,
or a point and digits, and a unit or none. -/
structure Literal where
  sign : Text
  /-- the digits before the point -/
  whole : Text
  /-- the digits behind the point, where there is one -/
  fraction : Option Text
  unit : Text
  sign_mem : sign ∈ [[], ['+'], ['-']]
  isDigit_whole : ∀ c ∈ whole, Text.isDigit c = true
  isDigit_fraction : ∀ digits ∈ fraction, ∀ c ∈ digits, Text.isDigit c = true
  exists_digit : whole ≠ [] ∨ ∃ digits ∈ fraction, digits ≠ []
  unit_mem : unit ∈ [[], ['n'], ['m']]

namespace Literal

variable {s : Literal} {t : Text} {x : Numeral}

/-- The point and the digits behind it. -/
def pointed (s : Literal) : Text :=
  match s.fraction with
  | none => []
  | some digits => '.' :: digits

/-- The numeral as a text. -/
def text (s : Literal) : Text :=
  s.sign ++ (s.whole ++ (s.pointed ++ s.unit))

/-- The digits behind the point, none where there is no point. -/
def decimals (s : Literal) : Text :=
  s.fraction.getD []

/-- The rational number that the numeral denotes. -/
def value (s : Literal) : Rat :=
  (if s.sign = ['-'] then -1 else 1) *
    (Text.placeValue s.whole + Text.placeValue s.decimals / 10 ^ s.decimals.length)

/-- The numeral that is read. -/
def numeral (s : Literal) : Numeral :=
  ⟨s.sign = ['-'], Text.placeValue (s.whole ++ s.decimals), s.decimals.length⟩

/-- **The number of a numeral** is the one that was written. Its digits before and behind the point
are one row with as many places as stand behind. -/
theorem value_numeral (s : Literal) : s.numeral.value = s.value := by
  have hsign : (if s.numeral.negative then -1 else 1 : Rat) =
      if s.sign = ['-'] then -1 else 1 := by
    simp [numeral]
  have hdigits : (s.numeral.digits : Rat) / 10 ^ s.numeral.places =
      Text.placeValue s.whole + Text.placeValue s.decimals / 10 ^ s.decimals.length := by
    simp only [numeral, Text.placeValue_append]
    push_cast
    field_simp
  rw [Numeral.value, value, hsign, hdigits]

/-! ### Reading -/

/-- A unit is nothing or one of two letters. -/
theorem isUnit_iff : Numeral.isUnit t = true ↔ t ∈ [[], ['n'], ['m']] := by
  simp [Numeral.isUnit, or_assoc]

/-- No unit begins with a digit or a point. It is one of two letters, or nothing. -/
theorem head?_unit (s : Literal) : ∀ c ∈ s.unit.head?, Text.isDigit c = false ∧ c ≠ '.' := by
  have hunit := s.unit_mem
  simp only [List.mem_cons, List.not_mem_nil, or_false] at hunit
  rcases hunit with h | h | h
  · simp [h]
  · rw [h]
    intro c hc
    obtain rfl : 'n' = c := by simpa using hc
    decide
  · rw [h]
    intro c hc
    obtain rfl : 'm' = c := by simpa using hc
    decide

/-- What stands behind the digits before the point begins with no digit. It begins with the point,
or with the unit where there is none. -/
theorem head?_pointed_append (s : Literal) :
    ∀ c ∈ (s.pointed ++ s.unit).head?, Text.isDigit c = false := by
  unfold pointed
  cases s.fraction with
  | none => exact fun c hc => (s.head?_unit c hc).1
  | some digits =>
    intro c hc
    obtain rfl : '.' = c := by simpa using hc
    decide

/-- Behind the sign stands no other sign. It begins with a digit, or with the point where there are
no digits before it. -/
theorem head?_body (s : Literal) :
    ∀ c ∈ (s.whole ++ (s.pointed ++ s.unit)).head?, c ≠ '-' ∧ c ≠ '+' := by
  have hdigit : ∀ c, Text.isDigit c = true → c ≠ '-' ∧ c ≠ '+' := by
    intro c hc
    constructor
    · rintro rfl
      exact absurd hc (by decide)
    · rintro rfl
      exact absurd hc (by decide)
  intro c hc
  cases hwhole : s.whole with
  | cons d whole =>
    obtain rfl : d = c := by simpa [hwhole] using hc
    exact hdigit d (s.isDigit_whole d (by simp [hwhole]))
  | nil =>
    obtain ⟨digits, hfraction, -⟩ := s.exists_digit.resolve_left (by simp [hwhole])
    obtain rfl : '.' = c := by
      simpa [hwhole, pointed, Option.mem_def.mp hfraction] using hc
    decide

/-- A text without a sign in front is a positive number as a whole. -/
theorem splitSign_of_head? (h : ∀ c ∈ t.head?, c ≠ '-' ∧ c ≠ '+') :
    Numeral.splitSign t = (false, t) := by
  unfold Numeral.splitSign
  split
  · exact absurd rfl (h '-' rfl).1
  · exact absurd rfl (h '+' rfl).2
  · rfl

/-- The sign of a literal is split off, and the rest of it is left. -/
theorem splitSign_text (s : Literal) :
    Numeral.splitSign s.text = (decide (s.sign = ['-']), s.whole ++ (s.pointed ++ s.unit)) := by
  have hsign := s.sign_mem
  simp only [List.mem_cons, List.not_mem_nil, or_false] at hsign
  unfold text
  rcases hsign with h | h | h
  · rw [h, List.nil_append, splitSign_of_head? s.head?_body]
    rfl
  · rw [h]
    rfl
  · rw [h]
    rfl

/-- **What is written as a numeral is read.**

**Proof sketch.** The sign, the digits before the point and those behind it are split off one after
the other, since what follows each begins with another sort of character. Without a point the unit
is what is left, and it cannot begin with a point itself. -/
theorem ofText?_text (s : Literal) : Numeral.ofText? s.text = some s.numeral := by
  have hspan := Text.spanDigits_append s.isDigit_whole s.head?_pointed_append
  have hunit : Numeral.isUnit s.unit = true := isUnit_iff.mpr s.unit_mem
  have hdigit := s.exists_digit
  rw [Numeral.ofText?, splitSign_text]
  simp only [Numeral.unsigned?, hspan]
  cases hfraction : s.fraction with
  | none =>
    -- without a fraction the unit follows the digits, and no unit begins with a point
    have hpoint : ∀ rest, s.unit ≠ '.' :: rest := by
      intro rest heq
      exact absurd rfl (s.head?_unit '.' (by simp [heq])).2
    have hwhole : s.whole ≠ [] := hdigit.resolve_right (by simp [hfraction])
    have hpointed : s.pointed ++ s.unit = s.unit := by simp [pointed, hfraction]
    have hdecimals : s.decimals = [] := by simp [decimals, hfraction]
    rw [hpointed]
    split
    · rename_i heq
      exact absurd (Prod.mk.inj heq).2 (hpoint _)
    · rename_i heq
      obtain ⟨rfl, rfl⟩ := Prod.mk.inj heq
      simp [hwhole, hunit, numeral, hdecimals, Text.digitsValue_map_digitValue]
  | some digits =>
    have hpointed : s.pointed ++ s.unit = '.' :: (digits ++ s.unit) := by
      simp [pointed, hfraction]
    have hdecimals : s.decimals = digits := by simp [decimals, hfraction]
    have hrest := Text.spanDigits_append (s.isDigit_fraction digits hfraction)
      fun c hc => (s.head?_unit c hc).1
    -- a point alone is no number
    have hsome : ¬ (s.whole = [] ∧ digits = []) := by
      rintro ⟨hwhole, rfl⟩
      rcases hdigit with h | ⟨more, hmore, hne⟩
      · exact h hwhole
      · obtain rfl : [] = more := by simpa [hfraction] using hmore
        exact hne rfl
    rw [hpointed]
    simp only [hrest]
    simp [hsome, hunit, numeral, hdecimals, ← Text.digitsValue_map_digitValue]

/-- What is read without a sign is written as a numeral behind any sign.

**Proof sketch.** The digits that are read are written as they stand, in two cases as there is a
point or not. That the numeral has a digit at all, and a unit that is known, is what the reader has
checked. -/
theorem exists_of_unsigned? (sign : Text) (hsign : sign ∈ [[], ['+'], ['-']]) {negative : Bool}
    (h : Numeral.unsigned? negative t = some x) : ∃ s : Literal, s.text = sign ++ t := by
  obtain ⟨whole, hwhole, htext, hvalues⟩ := Text.exists_of_spanDigits t
  unfold Numeral.unsigned? at h
  split at h
  · rename_i values rest hspan
    obtain ⟨digits, hdigits, htextMore, hvaluesMore⟩ := Text.exists_of_spanDigits rest
    simp only [hspan] at htext hvalues
    simp only [ite_eq_iff, reduceCtorEq, and_false, false_or, Bool.or_eq_true,
      Bool.and_eq_true, List.isEmpty_iff, not_or, Bool.not_eq_true', Bool.not_eq_false] at h
    obtain ⟨⟨hsome, hunit⟩, -⟩ := h
    refine ⟨⟨sign, whole, some digits, (Text.spanDigits rest).2, hsign, hwhole, ?_, ?_,
      isUnit_iff.mp hunit⟩, ?_⟩
    · intro more hmore
      obtain rfl := Option.mem_some_iff.mp hmore
      exact hdigits
    · by_contra hnone
      rw [not_or, not_not] at hnone
      refine hsome ⟨by rw [hvalues, hnone.1]; rfl, ?_⟩
      rw [hvaluesMore, List.map_eq_nil_iff]
      by_contra hne
      exact hnone.2 ⟨digits, rfl, hne⟩
    · rw [text, pointed, List.cons_append, ← htextMore, ← htext]
  · rename_i values rest _ hspan
    simp only [hspan] at htext hvalues
    simp only [ite_eq_iff, reduceCtorEq, and_false, false_or, Bool.or_eq_true, List.isEmpty_iff,
      not_or, Bool.not_eq_true', Bool.not_eq_false] at h
    obtain ⟨⟨hsome, hunit⟩, -⟩ := h
    have hne : whole ≠ [] := by
      rintro rfl
      exact hsome hvalues
    refine ⟨⟨sign, whole, none, rest, hsign, hwhole, by simp, Or.inl hne, isUnit_iff.mp hunit⟩, ?_⟩
    rw [htext]
    rfl

/-- **What is read as a numeral is written as one.** By cases on the sign, which is split off first.
-/
theorem exists_of_ofText? (h : Numeral.ofText? t = some x) : ∃ s : Literal, s.text = t := by
  unfold Numeral.ofText? Numeral.splitSign at h
  split at h
  rename_i heq
  split at heq
  · obtain ⟨rfl, rfl⟩ := Prod.mk.inj heq
    exact exists_of_unsigned? ['-'] (by simp) h
  · obtain ⟨rfl, rfl⟩ := Prod.mk.inj heq
    exact exists_of_unsigned? ['+'] (by simp) h
  · obtain ⟨rfl, rfl⟩ := Prod.mk.inj heq
    exact exists_of_unsigned? [] (by simp) h

/-- A text is read as a numeral just where it is written as one. -/
theorem ofText?_eq_none_iff : Numeral.ofText? t = none ↔ ¬ ∃ s : Literal, s.text = t := by
  constructor
  · rintro h ⟨s, rfl⟩
    rw [ofText?_text] at h
    exact Option.some_ne_none _ h
  · intro h
    rw [Option.eq_none_iff_forall_not_mem]
    exact fun x hx => h (exists_of_ofText? hx)

/-- The value of a text that is read is that of the numeral. -/
theorem exists_of_ofText?_eq (h : Numeral.ofText? t = some x) :
    ∃ s : Literal, s.text = t ∧ s.value = x.value := by
  obtain ⟨s, rfl⟩ := exists_of_ofText? h
  refine ⟨s, rfl, ?_⟩
  rw [← s.value_numeral, ← Option.some.inj (s.ofText?_text.symm.trans h)]

end Literal

end Manpage

/-!
# Texts, blanks and lines

A text is a sequence of code points; every length and every column of this library counts
them. This module holds the two character classes that the markup rests on, the blanks and
the line ends, and what is cut off or cut apart by means of them.

## Main definitions

* `Manpage.Text` — a sequence of code points.
* `Manpage.isSpace`, `Manpage.Text.isBlank` — blank characters and blank texts.
* `Manpage.Text.strip`, `Manpage.Text.stripRight` — a text without its outer blanks.
* `Manpage.Text.splitLines` — the lines of a text, without their ends.
* `Manpage.Text.ofNat`, `Manpage.Text.ofInt` — decimal numerals.
-/

namespace Manpage

/-- A sequence of code points. The surrogates, which stand for no character of their own, are none
of them: a text that holds one is outside this library. -/
abbrev Text := List Char

/-- A string literal stands for the text of its code points. -/
instance : Coe String Text := ⟨String.toList⟩

/-! ## Character classes -/

/-- A blank: the controls from tab to carriage return and from file to unit separator, the next
line control, and the space characters of the standard. -/
def isSpace (c : Char) : Bool :=
  let n := c.toNat
  (9 ≤ n && n ≤ 13) || (28 ≤ n && n ≤ 32) || n == 0x85 || n == 0xa0 || n == 0x1680
    || (0x2000 ≤ n && n ≤ 0x200a) || n == 0x2028 || n == 0x2029 || n == 0x202f || n == 0x205f
    || n == 0x3000

/-- A line end: line feed, vertical tab, form feed, carriage return, the file, group and record
separators, the next line control, and the line and paragraph separators. -/
def isLineEnd (c : Char) : Bool :=
  let n := c.toNat
  (10 ≤ n && n ≤ 13) || (28 ≤ n && n ≤ 30) || n == 0x85 || n == 0x2028 || n == 0x2029

/-- Every line end is a blank. -/
theorem isSpace_of_isLineEnd {c : Char} (h : isLineEnd c = true) : isSpace c = true := by
  simp only [isLineEnd, isSpace, Bool.or_eq_true, Bool.and_eq_true, decide_eq_true_eq,
    beq_iff_eq] at h ⊢
  omega

namespace Text

/-! ## Blank texts and outer blanks -/

/-- A text without a character other than blanks; the empty text is one. -/
def isBlank (t : Text) : Bool :=
  t.all isSpace

/-- The text without the blanks at its end. -/
def stripRight (t : Text) : Text :=
  (t.reverse.dropWhile isSpace).reverse

/-- The text without the blanks at its start and at its end. -/
def strip (t : Text) : Text :=
  stripRight (t.dropWhile isSpace)

/-! ## Lines -/

/-- The lines of a text, without their ends. A carriage return followed by a line feed is one
end, and nothing follows the last end. -/
def splitLines : Text → List Text
  | [] => []
  | '\r' :: '\n' :: t => [] :: splitLines t
  | c :: t =>
    if isLineEnd c then [] :: splitLines t
    else
      match splitLines t with
      | [] => [[c]]
      | line :: more => (c :: line) :: more

/-- Texts joined with a separator between any two neighbours. -/
def join (separator : Text) (ts : List Text) : Text :=
  List.intercalate separator ts

/-! ## Padding -/

/-- So many space characters. -/
def spaces (n : Nat) : Text :=
  List.replicate n ' '

/-- The text moved right to a width by spaces before it; a wider text stays as it is. -/
def padLeft (width : Nat) (t : Text) : Text :=
  spaces (width - t.length) ++ t

/-- The text filled up to a width by spaces after it; a wider text stays as it is. -/
def padRight (width : Nat) (t : Text) : Text :=
  t ++ spaces (width - t.length)

/-! ## Numerals -/

/-- The decimal numeral of a natural number. -/
def ofNat (n : Nat) : Text :=
  Nat.toDigits 10 n

/-- The decimal numeral of an integer, with a minus sign where it is negative. -/
def ofInt : Int → Text
  | .ofNat n => ofNat n
  | .negSucc n => '-' :: ofNat (n + 1)

end Text

end Manpage

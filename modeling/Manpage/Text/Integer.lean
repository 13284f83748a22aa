import Manpage.Text.Digit

/-!
# Integers in text

The reading of an integer: outer blanks, a sign, and decimal digits of any script with single
underscores between them. The four information separators are blanks everywhere but here.

## Main definitions

* `Manpage.Text.toInt?` — the integer that a text denotes.
-/

namespace Manpage.Text

/-- The blanks that may surround an integer. -/
def surroundsInteger (c : Char) : Bool :=
  isSpace c && !(28 ≤ c.toNat && c.toNat ≤ 31)

/-- The most digits that an integer may be written with. -/
def maxDigits : Nat :=
  4300

/-- The values of digits with single underscores between them. -/
def underscoredDigits? : Text → Option (List Nat)
  | [] => none
  | [c] => (digitValue? c).map ([·])
  | c :: '_' :: t => do
    let d ← digitValue? c
    let ds ← underscoredDigits? t
    return d :: ds
  | c :: t => do
    let d ← digitValue? c
    let ds ← underscoredDigits? t
    return d :: ds

/-- The natural number that a text denotes. -/
def toNat? (t : Text) : Option Nat := do
  let ds ← underscoredDigits? t
  if ds.length ≤ maxDigits then some (digitsValue ds) else none

/-- The integer that a text denotes. -/
def toInt? (t : Text) : Option Int :=
  let core := (((t.dropWhile surroundsInteger).reverse).dropWhile surroundsInteger).reverse
  match core with
  | '-' :: t => (toNat? t).map fun n => -(n : Int)
  | '+' :: t => (toNat? t).map fun n => (n : Int)
  | t => (toNat? t).map fun n => (n : Int)

end Manpage.Text

import Manpage.Text.Basic

/-!
# Decimal digits

The decimal digits of all scripts in the Unicode 14 character database. Each script has its
ten digits in one row, so a table of the zeros gives the value of every digit.

## Main definitions

* `Manpage.Text.digitZeros` — the zeros, in ascending order.
* `Manpage.Text.digitValue?` — the value of a decimal digit.
* `Manpage.Text.digitsValue` — the number that a row of digits denotes.
-/

namespace Manpage.Text

/-- The code points of the digit zero in every script, in ascending order. -/
def digitZeros : List Nat := [
    0x30, 0x660, 0x6f0, 0x7c0, 0x966, 0x9e6, 0xa66, 0xae6, 0xb66, 0xbe6, 0xc66, 0xce6, 0xd66, 0xde6,
    0xe50, 0xed0, 0xf20, 0x1040, 0x1090, 0x17e0, 0x1810, 0x1946, 0x19d0, 0x1a80, 0x1a90, 0x1b50,
    0x1bb0, 0x1c40, 0x1c50, 0xa620, 0xa8d0, 0xa900, 0xa9d0, 0xa9f0, 0xaa50, 0xabf0, 0xff10, 0x104a0,
    0x10d30, 0x11066, 0x110f0, 0x11136, 0x111d0, 0x112f0, 0x11450, 0x114d0, 0x11650, 0x116c0,
    0x11730, 0x118e0, 0x11950, 0x11c50, 0x11d50, 0x11da0, 0x16a60, 0x16ac0, 0x16b50, 0x1d7ce,
    0x1d7d8, 0x1d7e2, 0x1d7ec, 0x1d7f6, 0x1e140, 0x1e2f0, 0x1e950, 0x1fbf0]

/-- The value of a decimal digit of any script. -/
def digitValue? (c : Char) : Option Nat :=
  (digitZeros.find? fun base => base ≤ c.toNat && c.toNat < base + 10).map (c.toNat - ·)

/-- A decimal digit of any script. -/
def isDigit (c : Char) : Bool :=
  (digitValue? c).isSome

/-- The number that a row of digits denotes, most significant digit first. -/
def digitsValue (digits : List Nat) : Nat :=
  digits.foldl (fun value digit => 10 * value + digit) 0

/-- The longest row of digits at the start of a text, as values, and the rest of the text. -/
def spanDigits : Text → List Nat × Text
  | [] => ([], [])
  | c :: t =>
    match digitValue? c with
    | none => ([], c :: t)
    | some d =>
      let (ds, rest) := spanDigits t
      (d :: ds, rest)

end Manpage.Text

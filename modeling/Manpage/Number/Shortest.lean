import Manpage.Number.Binary64
import Manpage.Text.Basic

/-!
# Shortest decimal text

The text of a double: the fewest decimal digits that read back as the same double, and of those the
nearest. Small and large numbers have an exponent, all others a point.

## Main definitions

* `Manpage.Binary64.decimalExponent` — the exponent of the first decimal digit.
* `Manpage.Binary64.shortest` — the shortest digits and their exponent.
* `Manpage.Double` — doubles with a sign, infinities and the undefined number.
* `Manpage.Double.text` — the text of a double.
-/

namespace Manpage

namespace Binary64

/-- The exponent of the greatest power of ten that does not exceed a positive quotient. -/
def decimalExponent (num den : Nat) : Int :=
  if den ≤ num then ((Nat.toDigits 10 (num / den)).length : Int) - 1
  else
    let n := (Nat.toDigits 10 (den / num)).length
    if num * Nat.pow 10 (n - 1) = den then 1 - (n : Int) else -(n : Int)

/-- A quotient of natural numbers times a power of ten, as a quotient again. -/
def scaleByTen (num den : Nat) (e : Int) : Nat × Nat :=
  match e with
  | .ofNat n => (num * Nat.pow 10 n, den)
  | .negSucc n => (num, den * Nat.pow 10 (n + 1))

/-- A number of a decimal grid reads back as the double. -/
def readsBack (x : Binary64) (digits : Nat) (e : Int) : Bool :=
  let (n, d) := scaleByTen digits 1 e
  nearest? n d == some x

/-- The number of the decimal grid with a given exponent that is next to the double and reads back
as it, if one does; of two at the same distance, the even one. -/
def onGrid? (x : Binary64) (e : Int) : Option Nat :=
  let (num, den) := x.toQuotient
  let (n, d) := scaleByTen num den (-e)
  let low := n / d
  match x.readsBack low e, x.readsBack (low + 1) e with
  | false, false => none
  | true, false => some low
  | false, true => some (low + 1)
  | true, true => some (divNearest n d)

/-- The first grid from a given exponent down on which the double has a number. -/
def shortestFrom (x : Binary64) (e : Int) : Nat → Nat × Int
  | 0 => (0, e)
  | fuel + 1 =>
    match x.onGrid? e with
    | some digits => (digits, e)
    | none => x.shortestFrom (e - 1) fuel

/-- The shortest digits of a positive double as one number, and the exponent of the last digit.
Seventeen digits always suffice. -/
def shortest (x : Binary64) : Nat × Int :=
  let (num, den) := x.toQuotient
  x.shortestFrom (decimalExponent num den) 17

end Binary64

/-- A double with a sign, an infinity, or the undefined number. -/
inductive Double where
  | finite (negative : Bool) (magnitude : Binary64)
  | infinite (negative : Bool)
  | undefined
deriving DecidableEq

namespace Double

/-- The exponents of ten, of the first digit, that are written with a point. -/
def isPositional (e : Int) : Bool :=
  -4 ≤ e && e < 16

/-- Digits with the exponent of the first one, written with a point and at least one digit on
either side of it. -/
def positional (digits : Text) (e : Int) : Text :=
  if e < 0 then ['0', '.'] ++ List.replicate (-e - 1).toNat '0' ++ digits
  else
    let whole := digits.take (e + 1).toNat
    let fraction := digits.drop (e + 1).toNat
    whole ++ List.replicate ((e + 1).toNat - whole.length) '0' ++ ['.']
      ++ if fraction.isEmpty then ['0'] else fraction

/-- Digits with the exponent of the first one, written with that exponent, in two digits at
least. -/
def scientific (digits : Text) (e : Int) : Text :=
  let exponent := Text.ofNat e.natAbs
  let mantissa :=
    match digits with
    | d :: more@(_ :: _) => d :: '.' :: more
    | ds => ds
  mantissa ++ ['e', if e < 0 then '-' else '+']
    ++ List.replicate (2 - exponent.length) '0' ++ exponent

/-- The text of a positive double, or of zero. -/
def magnitudeText (x : Binary64) : Text :=
  if x.mantissa = 0 then ['0', '.', '0']
  else
    let (n, last) := x.shortest
    let all := Text.ofNat n
    let first := last + (all.length : Int) - 1
    let digits := (all.reverse.dropWhile (· == '0')).reverse
    if isPositional first then positional digits first else scientific digits first

/-- The text of a double. -/
def text : Double → Text
  | finite negative x => (if negative then ['-'] else []) ++ magnitudeText x
  | infinite negative => (if negative then ['-'] else []) ++ ['i', 'n', 'f']
  | undefined => ['n', 'a', 'n']

/-- The double next to a decimal number, given by its digits and the exponent of the last one. Far
beyond the range of doubles, the power of ten itself is not computed. -/
def ofDecimal (negative : Bool) (digits : Nat) (e : Int) : Double :=
  let size := (Nat.toDigits 10 digits).length + e
  if digits = 0 || size < -400 then finite negative ⟨0, Binary64.minExponent⟩
  else if 400 < size then infinite negative
  else
    let (n, d) := Binary64.scaleByTen digits 1 e
    match Binary64.nearest? n d with
    | some x => finite negative x
    | none => infinite negative

end Double

end Manpage

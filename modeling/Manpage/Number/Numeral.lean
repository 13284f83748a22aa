import Manpage.Number.Binary64
import Manpage.Text.Digit

/-!
# Numeric arguments

A numeric argument of a macro is a decimal numeral, with a sign and a fraction if need be, and with
a unit: ens and ems are both one column wide. It is read in double precision, and the fraction is
cut off.

## Main definitions

* `Manpage.Numeral` — a sign, the digits, and the number of them behind the point.
* `Manpage.Numeral.ofText?` — the numeral that an argument consists of.
* `Manpage.Numeral.toInt?` — its whole part, if a double can hold it.
-/

namespace Manpage

/-- A decimal numeral: a sign, all digits as one number, and how many of them stand behind the
point. -/
structure Numeral where
  negative : Bool
  digits : Nat
  places : Nat
deriving DecidableEq

namespace Numeral

/-- A sign at the start of a text, and the rest. -/
def splitSign : Text → Bool × Text
  | '-' :: t => (true, t)
  | '+' :: t => (false, t)
  | t => (false, t)

/-- What may follow the digits: nothing, or the unit of an en or an em. -/
def isUnit (t : Text) : Bool :=
  t == [] || t == ['n'] || t == ['m']

/-- A numeral without its sign: digits with an optional point and further digits, or a point and
digits; then a unit. -/
def unsigned? (negative : Bool) (t : Text) : Option Numeral :=
  match Text.spanDigits t with
  | (whole, '.' :: rest) =>
    let (fraction, rest) := Text.spanDigits rest
    if (whole.isEmpty && fraction.isEmpty) || !isUnit rest then none
    else some ⟨negative, Text.digitsValue (whole ++ fraction), fraction.length⟩
  | (whole, rest) =>
    if whole.isEmpty || !isUnit rest then none
    else some ⟨negative, Text.digitsValue whole, 0⟩

/-- The numeral that a text consists of. -/
def ofText? (t : Text) : Option Numeral :=
  let (negative, t) := splitSign t
  unsigned? negative t

/-- The numeral read in double precision, without its fraction; none where it is too large for a
double. -/
def toInt? (x : Numeral) : Option Int := do
  let d ← Binary64.nearest? x.digits (Nat.pow 10 x.places)
  let n : Int := d.floor
  return if x.negative then -n else n

end Numeral

end Manpage

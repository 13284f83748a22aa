/-!
# Double precision numbers

A quotient of natural numbers, rounded to a binary floating-point number of double precision: 53
bits of mantissa, exponents from -1074 on, a half to the even neighbour. The result is exact, a
mantissa and a power of two, and there is none where the rounded value is 2^1024 or more.

## Main definitions

* `Manpage.divNearest` — a quotient rounded to the nearest natural number.
* `Manpage.Binary64` — a mantissa times a power of two.
* `Manpage.Binary64.nearest?` — the double next to a quotient.
* `Manpage.Binary64.floor` — the whole part.
-/

namespace Manpage

/-- A quotient rounded to the nearest natural number, a half to the even neighbour. -/
def divNearest (num den : Nat) : Nat :=
  let q := num / den
  let r := num % den
  if 2 * r < den then q
  else if den < 2 * r then q + 1
  else if q % 2 = 0 then q
  else q + 1

/-- A quotient of natural numbers times a power of two, as a quotient again. -/
def scaleByPower (num den : Nat) (e : Int) : Nat × Nat :=
  match e with
  | .ofNat n => (num * Nat.pow 2 n, den)
  | .negSucc n => (num, den * Nat.pow 2 (n + 1))

/-- The exponent of the greatest power of two that does not exceed a positive quotient. -/
def binaryExponent (num den : Nat) : Int :=
  let e : Int := (Nat.log2 num : Int) - (Nat.log2 den : Int)
  let (n, d) := scaleByPower num den (-e)
  if d ≤ n then e else e - 1

/-- A mantissa times a power of two. -/
structure Binary64 where
  mantissa : Nat
  exponent : Int
deriving DecidableEq

namespace Binary64

/-- The least exponent of a power of two that a double is a multiple of. -/
def minExponent : Int :=
  -1074

/-- The bound of the mantissas, which have 53 bits. -/
def mantissaBound : Nat :=
  Nat.pow 2 53

/-- The exponent for the greatest doubles. -/
def maxExponent : Int :=
  971

/-- The double next to a quotient, a half to the even mantissa; none where its value would be 2^1024
or more. The mantissa has 53 bits unless the exponent is the least. -/
def nearest? (num den : Nat) : Option Binary64 :=
  if num = 0 then some ⟨0, minExponent⟩
  else
    let e := max (binaryExponent num den - 52) minExponent
    let (n, d) := scaleByPower num den (-e)
    let m := divNearest n d
    let rounded : Binary64 := if m = mantissaBound then ⟨mantissaBound / 2, e + 1⟩ else ⟨m, e⟩
    if rounded.exponent ≤ maxExponent then some rounded else none

/-- The double as a quotient of natural numbers. -/
def toQuotient (x : Binary64) : Nat × Nat :=
  scaleByPower x.mantissa 1 x.exponent

/-- The whole part of a double. -/
def floor (x : Binary64) : Nat :=
  let (n, d) := x.toQuotient
  n / d

end Binary64

end Manpage

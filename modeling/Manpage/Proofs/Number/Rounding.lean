import Manpage.Number.Binary64
import Mathlib.Algebra.Order.Field.Power
import Mathlib.Algebra.Order.Floor.Semifield
import Mathlib.Data.Int.Log
import Mathlib.Data.Rat.Floor
import Mathlib.Tactic.FieldSimp
import Mathlib.Tactic.Linarith
import Mathlib.Tactic.Positivity

/-!
# Rounding to double precision

The double next to a quotient is a multiple of a power of two, the spacing of the doubles around the
quotient: the spacing follows from the greatest power of two that does not exceed the quotient, and
never falls below the least exponent. On that grid the quotient goes to the nearest multiple, a half
to the even one. All that is needed of rounding follows from this: it keeps the order, it leaves
doubles alone, and it overflows from half a step below 2^1024 on.

## Main definitions

* `Manpage.NearestEven` — a natural number next to a rational one, the even one of two.
* `Manpage.Binary64.spacing` — the exponent of the distance between the doubles around a number.
* `Manpage.Binary64.Rounds` — a number rounded to a double, of any size.
* `Manpage.Binary64.value` — the number that a double stands for.

## Main results

* `Manpage.Binary64.exists_rounds` — the double next to a quotient is the rounded quotient.
* `Manpage.Binary64.Rounds.mono` — rounding keeps the order.
* `Manpage.Binary64.rounds_natCast` — whole numbers up to 2^53 are left alone.
* `Manpage.Binary64.Rounds.lt_iff` — the numbers that are too large.
* `Manpage.Binary64.Rounds.abs_sub_le` — no double is nearer.
-/

namespace Manpage

/-! ## The nearest natural number -/

/-- A natural number next to a rational one; between two of them, the even one. -/
structure NearestEven (x : Rat) (m : Nat) : Prop where
  ge : (m : Rat) - 1 / 2 ≤ x
  le : x ≤ m + 1 / 2
  even : x = m - 1 / 2 ∨ x = m + 1 / 2 → m % 2 = 0

namespace NearestEven

variable {x y : Rat} {m n : Nat}

/-- A natural number is the nearest to itself. -/
theorem natCast (m : Nat) : NearestEven m m := by
  refine ⟨by linarith, by linarith, ?_⟩
  rintro (h | h) <;> linarith

/-- Rounding keeps the order.

**Proof sketch.** Otherwise the greater number goes to the lesser of two neighbours, and the lesser
number to the greater. Then both lie halfway between, and the neighbours are both even. -/
theorem mono (hx : NearestEven x m) (hy : NearestEven y n) (hxy : x ≤ y) : m ≤ n := by
  by_contra hlt
  have hstep : (n : Rat) + 1 ≤ m := by exact_mod_cast Nat.lt_of_not_le hlt
  have hxm := hx.ge
  have hyn := hy.le
  have heq : (m : Rat) = n + 1 := by linarith
  have hm : m = n + 1 := by exact_mod_cast heq
  have hmeven := hx.even (Or.inl (by linarith))
  have hneven := hy.even (Or.inr (by linarith))
  omega

/-- What does not exceed a natural number is not rounded beyond it. -/
theorem le_of_le (hx : NearestEven x m) (h : x ≤ n) : m ≤ n :=
  hx.mono (natCast n) h

/-- What is not below a natural number is not rounded below it. -/
theorem ge_of_ge (hx : NearestEven x m) (h : (n : Rat) ≤ x) : n ≤ m :=
  (natCast n).mono hx h

/-- No whole number is nearer. Any other is a whole step off, and this one half a step at most. -/
theorem abs_sub_le (hx : NearestEven x m) (k : Int) : |x - m| ≤ |x - k| := by
  have hge := hx.ge
  have hle := hx.le
  rcases lt_trichotomy k (m : Int) with hk | rfl | hk
  · have hstep : (k : Rat) + 1 ≤ m := by exact_mod_cast hk
    rw [abs_le, abs_of_nonneg (by linarith : (0 : Rat) ≤ x - k)]
    constructor <;> linarith
  · exact le_of_eq (by push_cast; rfl)
  · have hstep : (m : Rat) + 1 ≤ k := by exact_mod_cast hk
    rw [abs_le, abs_of_nonpos (by linarith : x - (k : Rat) ≤ 0)]
    constructor <;> linarith

end NearestEven

/-- A quotient is rounded to the nearest natural number.

**Proof sketch.** Twice the remainder is compared with the divisor, which compares the fractional
part of the quotient with a half. -/
theorem nearestEven_divNearest (num : Nat) {den : Nat} (hden : 0 < den) :
    NearestEven (num / den) (divNearest num den) := by
  have hd : (0 : Rat) < den := by exact_mod_cast hden
  -- the quotient is a whole number and a fraction below one
  obtain ⟨f, hf, hquot⟩ : ∃ f : Rat, f = ((num % den : Nat) : Rat) / den ∧
      (num : Rat) / den = (num / den : Nat) + f := by
    refine ⟨_, rfl, ?_⟩
    rw [add_div' _ _ _ hd.ne', div_left_inj' hd.ne']
    exact_mod_cast (Nat.div_add_mod' num den).symm
  have hf0 : 0 ≤ f := by
    rw [hf]
    positivity
  have hf1 : f < 1 := by
    rw [hf, div_lt_one hd]
    exact_mod_cast Nat.mod_lt num hden
  rw [hquot]
  rcases lt_trichotomy (2 * (num % den)) den with h | h | h
  · -- below the half it is rounded down
    have hhalf : f < 1 / 2 := by
      have hcast : (2 : Rat) * ((num % den : Nat) : Rat) < den := by exact_mod_cast h
      rw [hf, div_lt_iff₀ hd]
      linarith
    rw [divNearest, if_pos h]
    refine ⟨by linarith, by linarith, ?_⟩
    rintro (heq | heq) <;> linarith
  · -- a tie goes to the even one of the two
    have hhalf : f = 1 / 2 := by
      have hcast : (2 : Rat) * ((num % den : Nat) : Rat) = den := by exact_mod_cast h
      rw [hf, div_eq_iff hd.ne']
      linarith
    rw [divNearest, if_neg (by omega), if_neg (by omega)]
    split
    · rename_i heven
      exact ⟨by linarith, by linarith, fun _ => heven⟩
    · refine ⟨?_, ?_, fun _ => by omega⟩
      · push_cast
        linarith
      · push_cast
        linarith
  · -- above the half it is rounded up
    have hhalf : 1 / 2 < f := by
      have hcast : (den : Rat) < 2 * ((num % den : Nat) : Rat) := by exact_mod_cast h
      rw [hf, lt_div_iff₀ hd]
      linarith
    rw [divNearest, if_neg (by omega), if_pos h]
    refine ⟨?_, ?_, ?_⟩
    · push_cast
      linarith
    · push_cast
      linarith
    · push_cast
      rintro (heq | heq) <;> linarith

/-! ## Quotients and powers of two -/

/-- A quotient times a power of two. The numerator is multiplied for a power that is not negative,
the denominator for one that is. -/
theorem scaleByPower_div (num den : Nat) (e : Int) :
    ((scaleByPower num den e).1 : Rat) / (scaleByPower num den e).2 =
      (num : Rat) / den * 2 ^ e := by
  cases e with
  | ofNat n =>
    simp only [scaleByPower, Nat.pow_eq, Int.ofNat_eq_natCast, zpow_natCast]
    push_cast
    ring
  | negSucc n =>
    simp only [scaleByPower, Nat.pow_eq, zpow_negSucc]
    push_cast
    rw [← div_eq_mul_inv, div_div]

/-- A positive denominator stays positive when the quotient is scaled by a power of two. -/
theorem scaleByPower_pos (num : Nat) {den : Nat} (hden : 0 < den) (e : Int) :
    0 < (scaleByPower num den e).2 := by
  cases e with
  | ofNat n => exact hden
  | negSucc n => exact Nat.mul_pos hden (Nat.two_pow_pos _)

/-- The exponent of a quotient is that of the greatest power of two up to it.

**Proof sketch.** The exponents of numerator and denominator leave two powers to choose from, and
the quotient is compared with the greater one. -/
theorem binaryExponent_eq {num den : Nat} (hnum : num ≠ 0) (hden : den ≠ 0) :
    binaryExponent num den = Int.log 2 ((num : Rat) / den) := by
  have hn : (0 : Rat) < num := by exact_mod_cast Nat.pos_of_ne_zero hnum
  have hd : (0 : Rat) < den := by exact_mod_cast Nat.pos_of_ne_zero hden
  have hq : (0 : Rat) < num / den := div_pos hn hd
  have hone : 1 < 2 := by decide
  -- the binary lengths bound the numerator and the denominator
  have hnum1 : (2 : Rat) ^ (Nat.log2 num : Int) ≤ num := by
    exact_mod_cast Nat.log2_self_le hnum
  have hnum2 : (num : Rat) < 2 ^ ((Nat.log2 num : Int) + 1) := by
    exact_mod_cast Nat.lt_log2_self (n := num)
  have hden1 : (2 : Rat) ^ (Nat.log2 den : Int) ≤ den := by
    exact_mod_cast Nat.log2_self_le hden
  have hden2 : (den : Rat) < 2 ^ ((Nat.log2 den : Int) + 1) := by
    exact_mod_cast Nat.lt_log2_self (n := den)
  have hlow : (2 : Rat) ^ ((Nat.log2 num : Int) - Nat.log2 den - 1) ≤ num / den := by
    rw [le_div_iff₀ hd]
    calc (2 : Rat) ^ ((Nat.log2 num : Int) - Nat.log2 den - 1) * den
        ≤ 2 ^ ((Nat.log2 num : Int) - Nat.log2 den - 1) * 2 ^ ((Nat.log2 den : Int) + 1) := by
          gcongr
      _ = 2 ^ (Nat.log2 num : Int) := by
          rw [← zpow_add₀ two_ne_zero]
          congr 1
          ring
      _ ≤ num := hnum1
  have hhigh : (num : Rat) / den < 2 ^ ((Nat.log2 num : Int) - Nat.log2 den + 1) := by
    rw [div_lt_iff₀ hd]
    calc (num : Rat) < 2 ^ ((Nat.log2 num : Int) + 1) := hnum2
      _ = 2 ^ ((Nat.log2 num : Int) - Nat.log2 den + 1) * 2 ^ (Nat.log2 den : Int) := by
          rw [← zpow_add₀ two_ne_zero]
          congr 1
          ring
      _ ≤ 2 ^ ((Nat.log2 num : Int) - Nat.log2 den + 1) * den := by gcongr
  -- the logarithm is the difference of the lengths or one less, and the test says which
  generalize he : (Nat.log2 num : Int) - Nat.log2 den = e at hlow hhigh
  have hlog1 : e - 1 ≤ Int.log 2 ((num : Rat) / den) :=
    (Int.zpow_le_iff_le_log hone hq).mp hlow
  have hlog2 : Int.log 2 ((num : Rat) / den) < e + 1 :=
    (Int.lt_zpow_iff_log_lt hone hq).mp hhigh
  have hscale := scaleByPower_div num den (-e)
  have hpos : (0 : Rat) < (scaleByPower num den (-e)).2 := by
    exact_mod_cast scaleByPower_pos num (Nat.pos_of_ne_zero hden) (-e)
  have htest : (scaleByPower num den (-e)).2 ≤ (scaleByPower num den (-e)).1 ↔
      e ≤ Int.log 2 ((num : Rat) / den) := by
    rw [← Int.zpow_le_iff_le_log hone hq, ← Nat.cast_le (α := Rat), ← one_le_div hpos,
      hscale, zpow_neg, ← div_eq_mul_inv, one_le_div (by positivity)]
    norm_cast
  simp only [binaryExponent, he]
  split
  · rename_i h
    have hle := htest.mp h
    omega
  · rename_i h
    have hlt := mt htest.mpr h
    omega

/-! ## Rounding -/

namespace Binary64

/-- The exponent of the distance between the doubles around a number. -/
def spacing (q : Rat) : Int :=
  max (Int.log 2 q - 52) minExponent

/-- A number rounded to a multiple of the spacing around it, whatever its size. -/
def Rounds (q v : Rat) : Prop :=
  ∃ m : Nat, NearestEven (q / 2 ^ spacing q) m ∧ v = m * 2 ^ spacing q

/-- The number that a double stands for. -/
def value (x : Binary64) : Rat :=
  x.mantissa * 2 ^ x.exponent

variable {q r v w : Rat} {e : Int} {m num den : Nat}

/-! ### The spacing -/

/-- The spacing of the doubles never falls below that of the least of them. -/
theorem minExponent_le_spacing (q : Rat) : minExponent ≤ spacing q :=
  le_max_right _ _

/-- The spacing grows with the quotient: greater doubles lie further apart. -/
theorem spacing_mono (hq : 0 < q) (h : q ≤ r) : spacing q ≤ spacing r :=
  max_le_max (Int.sub_le_sub_right (Int.log_mono_right hq h) 52) (le_refl _)

/-- A number has at most 53 bits above its spacing. -/
theorem lt_zpow_spacing (q : Rat) : q < 2 ^ (spacing q + 53) := by
  refine lt_of_lt_of_le (Int.lt_zpow_succ_log_self (b := 2) (by decide) q) ?_
  refine zpow_le_zpow_right₀ (by norm_num) ?_
  have hmax : Int.log 2 q - 52 ≤ spacing q := le_max_left _ _
  omega

/-- It has as many unless the spacing is the least. -/
theorem zpow_spacing_le (hq : 0 < q) (h : minExponent < spacing q) :
    (2 : Rat) ^ (spacing q + 52) ≤ q := by
  have hlog : spacing q + 52 = Int.log 2 q := by
    unfold spacing at h ⊢
    omega
  rw [hlog]
  exact Int.zpow_log_le_self (by decide) hq

/-- The spacing is known where the quotient lies between two powers of two, 52 and 53 places above
it. -/
theorem spacing_eq (he : minExponent ≤ e) (hlow : (2 : Rat) ^ (e + 52) ≤ q)
    (hhigh : q < 2 ^ (e + 53)) : spacing q = e := by
  have hq : 0 < q := lt_of_lt_of_le (by positivity) hlow
  have hlog1 : e + 52 ≤ Int.log 2 q := (Int.zpow_le_iff_le_log (by decide) hq).mp hlow
  have hlog2 : Int.log 2 q < e + 53 := (Int.lt_zpow_iff_log_lt (by decide) hq).mp hhigh
  unfold spacing
  omega

/-- In units of the spacing a quotient is below 2^53, so that its mantissa has no more than 53 bits.
-/
theorem div_zpow_spacing_lt (q : Rat) : q / 2 ^ spacing q < (2 ^ 53 : Nat) := by
  have hlt := lt_zpow_spacing q
  rw [zpow_add₀ two_ne_zero] at hlt
  rw [div_lt_iff₀ (by positivity), mul_comm]
  exact_mod_cast hlt

/-- In units of the spacing a quotient is at least 2^52, unless the spacing is the least: its
mantissa has all the bits that there are. -/
theorem le_div_zpow_spacing (hq : 0 < q) (h : minExponent < spacing q) :
    ((2 ^ 52 : Nat) : Rat) ≤ q / 2 ^ spacing q := by
  have hle := zpow_spacing_le hq h
  rw [zpow_add₀ two_ne_zero] at hle
  rw [le_div_iff₀ (by positivity), mul_comm]
  exact_mod_cast hle

/-! ### Rounded numbers -/

namespace Rounds

/-- A rounded number is not negative. -/
theorem nonneg (h : Rounds q v) : 0 ≤ v := by
  obtain ⟨m, -, rfl⟩ := h
  positivity

/-- Rounding keeps the order.

**Proof sketch.** On one grid this is so for the multiples. Where the spacing of the greater number
is wider, a power of two lies between the two results. -/
theorem mono (hq : Rounds q v) (hr : Rounds r w) (h0 : 0 ≤ q) (h : q ≤ r) : v ≤ w := by
  have hw := hr.nonneg
  obtain ⟨m, hm, rfl⟩ := hq
  obtain ⟨n, hn, rfl⟩ := hr
  rcases h0.eq_or_lt with rfl | h0
  · rw [zero_div] at hm
    have hzero : m ≤ 0 := hm.le_of_le (by simp)
    obtain rfl : m = 0 := by omega
    simpa using hw
  rcases (spacing_mono h0 h).eq_or_lt with heq | hlt
  · rw [heq] at hm ⊢
    have hmn : m ≤ n := hm.mono hn (div_le_div_of_nonneg_right h (by positivity))
    have hcast : (m : Rat) ≤ n := by exact_mod_cast hmn
    gcongr
  · have hmle : (m : Rat) ≤ 2 ^ (53 : Int) := by
      exact_mod_cast hm.le_of_le (div_zpow_spacing_lt q).le
    have hnge : (2 : Rat) ^ (52 : Int) ≤ n := by
      exact_mod_cast hn.ge_of_ge (le_div_zpow_spacing (lt_of_lt_of_le h0 h)
        (lt_of_le_of_lt (minExponent_le_spacing q) hlt))
    calc (m : Rat) * 2 ^ spacing q ≤ 2 ^ (53 : Int) * 2 ^ spacing q := by gcongr
      _ = 2 ^ (53 + spacing q) := by rw [zpow_add₀ two_ne_zero]
      _ ≤ 2 ^ (52 + spacing r) := zpow_le_zpow_right₀ (by norm_num) (by omega)
      _ = 2 ^ (52 : Int) * 2 ^ spacing r := by rw [zpow_add₀ two_ne_zero]
      _ ≤ n * 2 ^ spacing r := by gcongr

/-- There is one number that a quotient is rounded to, since of two nearest numbers only one can be
even. -/
theorem unique (hv : Rounds q v) (hw : Rounds q w) (h0 : 0 ≤ q) : v = w :=
  le_antisymm (hv.mono hw h0 (le_refl q)) (hw.mono hv h0 (le_refl q))

end Rounds

/-- A double that is finer than the spacing around a number does not exceed the power of two from
which on the spacing is what it is. -/
theorem mul_zpow_le_of_lt_spacing (hm : m ≤ 2 ^ 53) (h : e < spacing q) :
    (m : Rat) * 2 ^ e ≤ 2 ^ (spacing q + 52) := by
  have hcast : (m : Rat) ≤ 2 ^ (53 : Int) := by exact_mod_cast hm
  calc (m : Rat) * 2 ^ e ≤ 2 ^ (53 : Int) * 2 ^ e := by gcongr
    _ = 2 ^ (53 + e) := by rw [zpow_add₀ two_ne_zero]
    _ ≤ 2 ^ (spacing q + 52) := zpow_le_zpow_right₀ (by norm_num) (by omega)

/-- A double that is no finer than the spacing is on the grid. -/
theorem exists_multiple_of_spacing_le (m : Nat) (h : spacing q ≤ e) :
    ∃ k : Nat, (m : Rat) * 2 ^ e = k * 2 ^ spacing q := by
  obtain ⟨n, hn⟩ := Int.le.dest h
  refine ⟨m * 2 ^ n, ?_⟩
  rw [← hn, zpow_add₀ two_ne_zero, zpow_natCast]
  push_cast
  ring

/-- Multiples of the spacing are left alone. -/
theorem rounds_of_eq_mul {k : Nat} (h : q = k * 2 ^ spacing q) : Rounds q q := by
  refine ⟨k, ?_, h⟩
  have hdiv : q / 2 ^ spacing q = k := by
    rw [div_eq_iff (by positivity)]
    exact h
  rw [hdiv]
  exact NearestEven.natCast k

/-- Doubles are left alone.

**Proof sketch.** A double is a multiple of the spacing around it. Where its own exponent is less,
it is the power of two from which on the spacing is what it is. -/
theorem rounds_double (hm : m ≤ 2 ^ 53) (he : minExponent ≤ e) :
    Rounds (m * 2 ^ e) (m * 2 ^ e) := by
  rcases Nat.eq_zero_or_pos m with rfl | hm0
  · exact rounds_of_eq_mul (k := 0) (by simp)
  rcases le_or_gt (spacing (m * 2 ^ e)) e with h | h
  · obtain ⟨k, hk⟩ := exists_multiple_of_spacing_le m h
    exact rounds_of_eq_mul hk
  · have hpos : (0 : Rat) < m * 2 ^ e := by positivity
    have heq := le_antisymm (mul_zpow_le_of_lt_spacing hm h)
      (zpow_spacing_le hpos (lt_of_le_of_lt he h))
    refine rounds_of_eq_mul (k := 2 ^ 52) ?_
    rw [zpow_add₀ two_ne_zero, mul_comm (2 ^ _)] at heq
    exact_mod_cast heq

/-- **Whole numbers up to 2^53 are left alone.** -/
theorem rounds_natCast (hm : m ≤ 2 ^ 53) : Rounds m m := by
  have hround := rounds_double hm (e := 0) (by decide)
  simpa using hround

/-- Zero is rounded to itself. -/
theorem rounds_zero : Rounds 0 0 := by
  simpa using rounds_natCast (m := 0) (by decide)

/-- Zero is rounded to nothing but zero. -/
theorem Rounds.eq_zero (h : Rounds 0 v) : v = 0 :=
  h.unique rounds_zero le_rfl

/-- **No double is nearer** than the rounded number.

**Proof sketch.** Among the multiples of the spacing none is nearer. A finer double is below the
power of two from which on the spacing is what it is, and that power is one of the multiples. -/
theorem Rounds.abs_sub_le (h : Rounds q v) (h0 : 0 < q) (hm : m ≤ 2 ^ 53)
    (he : minExponent ≤ e) : |q - v| ≤ |q - m * 2 ^ e| := by
  obtain ⟨n, hn, rfl⟩ := h
  have hpos : (0 : Rat) < 2 ^ spacing q := by positivity
  have hgrid : ∀ k : Nat, |q - n * 2 ^ spacing q| ≤ |q - k * 2 ^ spacing q| := by
    intro k
    have hscale : ∀ j : Nat,
        |q - j * 2 ^ spacing q| = |q / 2 ^ spacing q - j| * 2 ^ spacing q := by
      intro j
      rw [← abs_of_pos hpos, ← abs_mul, abs_of_pos hpos, sub_mul, div_mul_cancel₀ _ hpos.ne']
    rw [hscale, hscale]
    exact mul_le_mul_of_nonneg_right (by exact_mod_cast hn.abs_sub_le k) hpos.le
  rcases le_or_gt (spacing q) e with hse | hse
  · obtain ⟨k, hk⟩ := exists_multiple_of_spacing_le m hse
    rw [hk]
    exact hgrid k
  · have hfine := mul_zpow_le_of_lt_spacing hm hse
    have hpower := zpow_spacing_le h0 (lt_of_le_of_lt he hse)
    have hmultiple := hgrid (2 ^ 52)
    rw [zpow_add₀ two_ne_zero, mul_comm (2 ^ _)] at hfine hpower
    have hcast : ((2 ^ 52 : Nat) : Rat) = 2 ^ (52 : Int) := by norm_cast
    rw [hcast, abs_of_nonneg (sub_nonneg.mpr hpower)] at hmultiple
    rw [abs_of_nonneg (sub_nonneg.mpr (hfine.trans hpower))]
    linarith

/-! ### Numbers that are too large -/

/-- The great powers of two, counted in half steps of the greatest doubles. Each is a small power of
two times the least. -/
theorem exists_halfStep : ∃ u : Rat, 0 < u ∧ (2 : Rat) ^ (970 : Int) = u ∧
    (2 : Rat) ^ (971 : Int) = 2 * u ∧ (2 : Rat) ^ (1023 : Int) = 2 ^ 53 * u ∧
    (2 : Rat) ^ (1024 : Int) = 2 ^ 54 * u := by
  have hpower : ∀ k : Nat, (2 : Rat) ^ ((970 : Int) + k) = 2 ^ k * 2 ^ (970 : Int) := by
    intro k
    rw [zpow_add₀ two_ne_zero, zpow_natCast, mul_comm]
  have hone : (2 : Rat) ^ (971 : Int) = 2 ^ 1 * 2 ^ (970 : Int) := hpower 1
  rw [pow_one] at hone
  exact ⟨2 ^ (970 : Int), by positivity, rfl, hone, hpower 53, hpower 54⟩

/-- The spacing of the greatest doubles. -/
theorem spacing_eq_of_large (hlow : (2 : Rat) ^ (1023 : Int) ≤ q) (hhigh : q < 2 ^ (1024 : Int)) :
    spacing q = 971 :=
  spacing_eq (by decide) hlow hhigh

/-- Half a step below 2^1024 is rounded to it.

**Proof sketch.** The number lies half a step below a power of two, with the two doubles next to it
at the same distance, so that the even mantissa decides. All powers are written as multiples of half
a step, and only their ratios are computed. -/
theorem rounds_overflow :
    Rounds ((2 : Rat) ^ (1024 : Int) - 2 ^ (970 : Int)) (2 ^ (1024 : Int)) := by
  obtain ⟨u, hu, hhalf, hstep, hlow, hhigh⟩ := exists_halfStep
  have hspacing : spacing ((2 : Rat) ^ (1024 : Int) - 2 ^ (970 : Int)) = 971 := by
    refine spacing_eq_of_large ?_ ?_
    · rw [hlow, hhigh, hhalf]
      linarith only [hu]
    · rw [hhigh, hhalf]
      linarith only [hu]
  have hdiv : (2 ^ 54 * u - u) / (2 * u) = (2 ^ 53 : Nat) - 1 / 2 := by
    rw [div_eq_iff (by positivity)]
    push_cast
    ring
  refine ⟨2 ^ 53, ?_, ?_⟩
  · rw [hspacing, hhigh, hhalf, hstep, hdiv]
    exact ⟨le_refl _, by linarith only, fun _ => by decide⟩
  · rw [hspacing, hstep, hhigh]
    push_cast
    ring

/-- **The numbers that are too large** are those from half a step below 2^1024 on.

**Proof sketch.** Rounding keeps the order, so it is enough to look at the least such number, and at
the numbers between 2^1023 and it: these are less than half a step below 2^1024. -/
theorem Rounds.lt_iff (h : Rounds q v) (h0 : 0 ≤ q) :
    v < 2 ^ (1024 : Int) ↔ q < 2 ^ (1024 : Int) - 2 ^ (970 : Int) := by
  obtain ⟨u, hu, hhalf, hstep, hlow, hhigh⟩ := exists_halfStep
  constructor
  · intro hv
    by_contra hq
    have hbound : (0 : Rat) ≤ 2 ^ (1024 : Int) - 2 ^ (970 : Int) := by
      rw [hhigh, hhalf]
      linarith only [hu]
    exact absurd hv (not_lt.mpr (rounds_overflow.mono h hbound (not_lt.mp hq)))
  · intro hq
    rcases lt_or_ge q (2 ^ (1023 : Int)) with hsmall | hlarge
    · have hpower : Rounds ((2 : Rat) ^ (1023 : Int)) (2 ^ (1023 : Int)) := by
        simpa using rounds_double (m := 1) (e := 1023) (by decide) (by decide)
      calc v ≤ 2 ^ (1023 : Int) := h.mono hpower h0 hsmall.le
        _ < 2 ^ (1024 : Int) := by
          rw [hlow, hhigh]
          linarith only [hu]
    · rw [hhigh, hhalf] at hq
      have hspacing : spacing q = 971 := spacing_eq_of_large hlarge (by
        rw [hhigh]
        linarith only [hu, hq])
      obtain ⟨m, hm, rfl⟩ := h
      rw [hspacing, hstep] at hm
      have hdiv : q / (2 * u) < 2 ^ 53 - 1 / 2 := by
        rw [div_lt_iff₀ (by positivity)]
        linarith only [hq]
      have hlt : (m : Rat) < 2 ^ 53 := by linarith only [hm.ge, hdiv]
      rw [hspacing, hstep, hhigh]
      calc (m : Rat) * (2 * u) < 2 ^ 53 * (2 * u) := by gcongr
        _ = 2 ^ 54 * u := by ring

/-! ### The double next to a quotient -/

/-- What a rounding to a grid amounts to as a double: the greatest mantissa is taken down, and too
great an exponent is refused.

**Proof sketch.** Both questions are about the size of the rounded number. Its mantissa has 53 bits
unless the spacing is the least, so the exponent tells whether it is below 2^1024. -/
theorem value_and_exponent (hq : 0 < q) (hm : NearestEven (q / 2 ^ spacing q) m) :
    let d : Binary64 :=
      if m = mantissaBound then ⟨mantissaBound / 2, spacing q + 1⟩ else ⟨m, spacing q⟩
    d.value = m * 2 ^ spacing q ∧
      (d.exponent ≤ maxExponent ↔ (m : Rat) * 2 ^ spacing q < 2 ^ (1024 : Int)) := by
  have hle : m ≤ 2 ^ 53 := hm.le_of_le (div_zpow_spacing_lt q).le
  have hbound : mantissaBound = 2 ^ 53 := rfl
  have hhalf : 2 ^ 53 / 2 = 2 ^ 52 := by decide
  have hone : (1 : Rat) < 2 := by norm_num
  simp only [hbound, hhalf, maxExponent]
  split
  · rename_i heq
    -- the mantissa was rounded up to a power of two, so it is halved and the exponent grows
    have hvalue : (m : Rat) * 2 ^ spacing q = 2 ^ (spacing q + 53) := by
      rw [heq, zpow_add₀ two_ne_zero, mul_comm]
      norm_cast
    refine ⟨?_, ?_⟩
    · have hstep : spacing q + 53 = 52 + (spacing q + 1) := by ring
      rw [hvalue, hstep, zpow_add₀ two_ne_zero, value]
      norm_cast
    · rw [hvalue, zpow_lt_zpow_iff_right₀ hone]
      dsimp only
      omega
  · rename_i hne
    have hlt : (m : Rat) < 2 ^ (53 : Int) := by exact_mod_cast Nat.lt_of_le_of_ne hle hne
    refine ⟨rfl, fun h => ?_, fun h => ?_⟩
    · dsimp only at h
      calc (m : Rat) * 2 ^ spacing q < 2 ^ (53 : Int) * 2 ^ spacing q := by gcongr
        _ = 2 ^ (53 + spacing q) := by rw [zpow_add₀ two_ne_zero]
        _ ≤ 2 ^ (1024 : Int) := zpow_le_zpow_right₀ hone.le (by omega)
    · dsimp only
      -- a spacing past the largest makes the quotient too large, since its mantissa has all its
      -- bits
      by_contra hgreat
      have hspacing : minExponent < spacing q := by
        unfold minExponent
        omega
      have hge : (2 : Rat) ^ (52 : Int) ≤ m := by
        exact_mod_cast hm.ge_of_ge (le_div_zpow_spacing hq hspacing)
      refine absurd h (not_lt.mpr ?_)
      calc (2 : Rat) ^ (1024 : Int) ≤ 2 ^ (52 + spacing q) :=
            zpow_le_zpow_right₀ hone.le (by omega)
        _ = 2 ^ (52 : Int) * 2 ^ spacing q := by rw [zpow_add₀ two_ne_zero]
        _ ≤ m * 2 ^ spacing q := by gcongr

/-- **The double next to a quotient** is the rounded quotient. There is none where the rounded
quotient is 2^1024 or more.

**Proof sketch.** The exponent that is computed is that of the spacing, so that the mantissa is the
quotient in units of the spacing, rounded to even. A mantissa of 2^53 moves on to the next exponent,
which leaves the value as it is; whether the exponent still fits says which case it is. -/
theorem exists_rounds (num : Nat) (hden : 0 < den) : ∃ v, Rounds (num / den) v ∧
    ((v < 2 ^ (1024 : Int) ∧ ∃ d, nearest? num den = some d ∧ d.value = v) ∨
      (2 ^ (1024 : Int) ≤ v ∧ nearest? num den = none)) := by
  rcases Nat.eq_zero_or_pos num with rfl | hnum
  · refine ⟨0, ?_, Or.inl ⟨by positivity, _, rfl, ?_⟩⟩
    · simpa using rounds_zero
    · simp [value]
  · have hq : (0 : Rat) < num / den := by positivity
    have hexponent :
        max (binaryExponent num den - 52) minExponent = spacing ((num : Rat) / den) := by
      rw [binaryExponent_eq hnum.ne' hden.ne']
      rfl
    have hscale := scaleByPower_div num den (-spacing ((num : Rat) / den))
    have hm := nearestEven_divNearest (scaleByPower num den (-spacing ((num : Rat) / den))).1
      (scaleByPower_pos num hden (-spacing ((num : Rat) / den)))
    rw [hscale, zpow_neg, ← div_eq_mul_inv] at hm
    obtain ⟨hvalue, hsize⟩ := value_and_exponent hq hm
    refine ⟨_, ⟨_, hm, rfl⟩, ?_⟩
    simp only [nearest?, if_neg hnum.ne', hexponent]
    generalize (if _ = mantissaBound then _ else _ : Binary64) = d at hvalue hsize ⊢
    by_cases hfits : d.exponent ≤ maxExponent
    · exact Or.inl ⟨hsize.mp hfits, _, if_pos hfits, hvalue⟩
    · exact Or.inr ⟨not_lt.mp (mt hsize.mpr hfits), if_neg hfits⟩

/-- The whole part of a double. -/
theorem floor_eq (x : Binary64) : x.floor = ⌊x.value⌋₊ := by
  have hscale := scaleByPower_div x.mantissa 1 x.exponent
  rw [Nat.cast_one, div_one] at hscale
  rw [value, ← hscale, Nat.floor_div_eq_div]
  rfl

end Binary64

end Manpage

import Manpage.Proofs.Number.Rounding
import Manpage.Proofs.Number.Literal

/-!
# Numerals as whole numbers

A numeral is rounded to a double, and the fraction of that is cut off. What comes out depends on the
number of the numeral alone, not on how it is written. It grows with that number and changes its
sign with it; whole numbers up to 2^53 come out as they are, and what is less than 2^53 comes out as
its whole part, or one further away from zero.

## Main definitions

* `Manpage.TruncatesTo` — the whole number that a rational one is read as, if it is not too large.

## Main results

* `Manpage.Numeral.truncatesTo` — a numeral is read by its number.
* `Manpage.TruncatesTo.mono`, `Manpage.TruncatesTo.neg` — order and sign are kept.
* `Manpage.TruncatesTo.of_int`, `Manpage.TruncatesTo.near`, `Manpage.TruncatesTo.eq_none_iff` — what
  is read exactly, what is read nearly, and what is too large.
-/

namespace Manpage

variable {z w : Rat} {r r' : Option Int} {n k : Int}

/-- The whole number that a rational one is read as: its size is rounded to a double, and the
fraction of that is cut off. There is none where the rounded size is 2^1024 or more. -/
def TruncatesTo (z : Rat) (r : Option Int) : Prop :=
  ∃ v, Binary64.Rounds |z| v ∧
    ((v < 2 ^ (1024 : Int) ∧ r = some (if z < 0 then -(⌊v⌋₊ : Int) else ⌊v⌋₊)) ∨
      (2 ^ (1024 : Int) ≤ v ∧ r = none))

namespace Numeral

/-- The size of the number of a numeral is that of its digits, without its sign. -/
theorem abs_value (x : Numeral) : |x.value| = x.digits / 10 ^ x.places := by
  have hpos : (0 : Rat) ≤ x.digits / 10 ^ x.places := by positivity
  unfold value
  cases x.negative with
  | true => simp [abs_of_nonneg hpos]
  | false => simp [abs_of_nonneg hpos]

/-- A number is negative if the numeral has a minus sign and its digits are not all zeros. -/
theorem value_neg_iff (x : Numeral) : x.value < 0 ↔ x.negative = true ∧ x.digits ≠ 0 := by
  have hpos : (0 : Rat) ≤ x.digits / 10 ^ x.places := by positivity
  unfold value
  cases x.negative with
  | true => simp [hpos.lt_iff_ne']
  | false => simp [hpos.not_gt]

/-- **A numeral is read by its number.**

**Proof sketch.** The double next to the numeral without its sign is found first; its whole part is
taken, and the sign is put before it. A minus sign before zero is the case to look at, since there
the value is not negative though the numeral has a sign. -/
theorem truncatesTo (x : Numeral) : TruncatesTo x.value x.toInt? := by
  have hden : 0 < Nat.pow 10 x.places := Nat.pow_pos (by decide)
  obtain ⟨v, hv, hcases⟩ := Binary64.exists_rounds x.digits hden
  have habs : (x.digits : Rat) / (Nat.pow 10 x.places : Nat) = |x.value| := by
    rw [abs_value, Nat.pow_eq]
    push_cast
    rfl
  rw [habs] at hv
  refine ⟨v, hv, ?_⟩
  rcases hcases with ⟨hlt, d, hd, hvalue⟩ | ⟨hge, hnone⟩
  · refine Or.inl ⟨hlt, ?_⟩
    have hread : x.toInt? = some (if x.negative then -(⌊v⌋₊ : Int) else ⌊v⌋₊) := by
      rw [toInt?, hd, ← hvalue, ← Binary64.floor_eq]
      rfl
    rw [hread]
    by_cases hneg : x.value < 0
    · rw [if_pos hneg, if_pos ((value_neg_iff x).mp hneg).1]
    · rw [if_neg hneg]
      cases hsign : x.negative with
      | false => rfl
      | true =>
        -- a minus sign before zero
        have hdigits : x.digits = 0 := by
          by_contra hne
          exact hneg ((value_neg_iff x).mpr ⟨hsign, hne⟩)
        have hzero : v = 0 := by
          rw [abs_value, hdigits, Nat.cast_zero, zero_div] at hv
          exact hv.eq_zero
        rw [hzero]
        rfl
  · refine Or.inr ⟨hge, ?_⟩
    rw [toInt?, hnone]
    rfl

end Numeral

namespace TruncatesTo

/-- A number comes out as one whole number at most, or else as none. What is rounded is so in one
way, and its size says which of the two cases it is. -/
theorem unique (h : TruncatesTo z r) (h' : TruncatesTo z r') : r = r' := by
  obtain ⟨v, hv, hcases⟩ := h
  obtain ⟨u, hu, hcases'⟩ := h'
  obtain rfl := hv.unique hu (abs_nonneg z)
  rcases hcases with ⟨hlt, rfl⟩ | ⟨hge, rfl⟩
  · rcases hcases' with ⟨-, rfl⟩ | ⟨hge, -⟩
    · rfl
    · exact absurd hlt (not_lt.mpr hge)
  · rcases hcases' with ⟨hlt, -⟩ | ⟨-, rfl⟩
    · exact absurd hlt (not_lt.mpr hge)
    · rfl

/-- **What is too large** is so from 2^1024 - 2^970 on. Rounding keeps what is below that, and only
that, below 2^1024. -/
theorem eq_none_iff (h : TruncatesTo z r) : r = none ↔ 2 ^ 1024 - 2 ^ 970 ≤ |z| := by
  obtain ⟨v, hv, hcases⟩ := h
  have hiff := hv.lt_iff (abs_nonneg z)
  have hpowers : (2 : Rat) ^ (1024 : Int) - 2 ^ (970 : Int) = 2 ^ 1024 - 2 ^ 970 := rfl
  rw [hpowers] at hiff
  rw [← not_lt, ← hiff]
  rcases hcases with ⟨hlt, rfl⟩ | ⟨hge, rfl⟩
  · exact ⟨fun h => absurd h (Option.some_ne_none _), fun h => absurd hlt h⟩
  · exact ⟨fun _ => not_lt.mpr hge, fun _ => rfl⟩

/-- **The sign** of what is read is that of the number.

**Proof sketch.** Only zero is neither negative itself nor when its sign is changed, and it is read
as zero. -/
theorem neg (h : TruncatesTo z r) : TruncatesTo (-z) (r.map Neg.neg) := by
  obtain ⟨v, hv, hcases⟩ := h
  refine ⟨v, by rwa [abs_neg], ?_⟩
  rcases hcases with ⟨hlt, rfl⟩ | ⟨hge, rfl⟩
  · refine Or.inl ⟨hlt, ?_⟩
    rcases lt_trichotomy z 0 with hz | rfl | hz
    · have hnot : ¬ -z < 0 := by linarith
      simp [hz, hnot]
    · have hzero : v = 0 := by
        rw [abs_zero] at hv
        exact hv.eq_zero
      simp [hzero]
    · have hneg : -z < 0 := by linarith
      have hnot : ¬ z < 0 := by linarith
      simp [hneg, hnot]
  · exact Or.inr ⟨hge, rfl⟩

/-- What is read of a number that is not too large. -/
theorem exists_of_some (h : TruncatesTo z (some n)) :
    ∃ v, Binary64.Rounds |z| v ∧ n = if z < 0 then -(⌊v⌋₊ : Int) else ⌊v⌋₊ := by
  obtain ⟨v, hv, ⟨-, hn⟩ | ⟨-, hnone⟩⟩ := h
  · exact ⟨v, hv, Option.some.inj hn⟩
  · exact absurd hnone (Option.some_ne_none n)

/-- **The order** of what is read is that of the numbers.

**Proof sketch.** On either side of zero the size grows with the distance from zero. -/
theorem mono (hz : TruncatesTo z (some n)) (hw : TruncatesTo w (some k)) (h : z ≤ w) : n ≤ k := by
  obtain ⟨v, hv, rfl⟩ := hz.exists_of_some
  obtain ⟨u, hu, rfl⟩ := hw.exists_of_some
  rcases lt_or_ge w 0 with hw0 | hw0
  · have hz0 : z < 0 := lt_of_le_of_lt h hw0
    have habs : |w| ≤ |z| := by
      rw [abs_of_neg hw0, abs_of_neg hz0]
      linarith
    have hfloor : ⌊u⌋₊ ≤ ⌊v⌋₊ := Nat.floor_mono (hu.mono hv (abs_nonneg w) habs)
    rw [if_pos hz0, if_pos hw0]
    omega
  · rw [if_neg (not_lt.mpr hw0)]
    split
    · omega
    · rename_i hz0
      have habs : |z| ≤ |w| := by
        rwa [abs_of_nonneg (not_lt.mp hz0), abs_of_nonneg hw0]
      exact_mod_cast Nat.floor_mono (hv.mono hu (abs_nonneg z) habs)

/-- Less than 2^53 is not too large. -/
theorem ne_none_of_lt (h : TruncatesTo z r) (hz : |z| ≤ 2 ^ 53) : r ≠ none := by
  have hone : (1 : Rat) ≤ 2 ^ 970 := one_le_pow₀ (by norm_num)
  have hpower : (2 : Rat) ^ 1024 = 2 ^ 54 * 2 ^ 970 := by rw [← pow_add]
  rw [ne_eq, h.eq_none_iff, not_le, hpower]
  generalize (2 : Rat) ^ 970 = u at hone ⊢
  linarith

/-- **What is less than 2^53** is read as its whole part, or as one further away from zero.

**Proof sketch.** Rounding leaves the whole numbers below and above alone and keeps the order, so
that the rounded size is between them. -/
theorem near (h : TruncatesTo z r) (hz : |z| < 2 ^ 53) :
    ∃ m : Nat, (m = ⌊|z|⌋₊ ∨ m = ⌊|z|⌋₊ + 1) ∧ r = some (if z < 0 then -(m : Int) else m) := by
  obtain ⟨n, rfl⟩ := Option.ne_none_iff_exists'.mp (h.ne_none_of_lt hz.le)
  obtain ⟨v, hv, rfl⟩ := h.exists_of_some
  refine ⟨⌊v⌋₊, ?_, rfl⟩
  have hsmall : ⌊|z|⌋₊ < 2 ^ 53 := by
    rw [Nat.floor_lt (abs_nonneg z)]
    exact_mod_cast hz
  have hlow : ⌊|z|⌋₊ ≤ ⌊v⌋₊ := by
    have hmono := (Binary64.rounds_natCast hsmall.le).mono hv (Nat.cast_nonneg _)
      (Nat.floor_le (abs_nonneg z))
    exact Nat.le_floor hmono
  have hhigh : ⌊v⌋₊ ≤ ⌊|z|⌋₊ + 1 := by
    have hle : |z| ≤ ((⌊|z|⌋₊ + 1 : Nat) : Rat) := by
      push_cast
      exact (Nat.lt_floor_add_one |z|).le
    have hmono := hv.mono (Binary64.rounds_natCast hsmall) (abs_nonneg z) hle
    exact Nat.floor_le_of_le hmono
  omega

/-- **Whole numbers up to 2^53** are read exactly.

**Proof sketch.** Such a number is a double, so it is rounded to itself and its whole part is
itself; the sign is put back by cases on it. -/
theorem of_int (h : TruncatesTo (k : Rat) r) (hk : |k| ≤ 2 ^ 53) : r = some k := by
  have hcast : |(k : Rat)| = (k.natAbs : Nat) := by rw [Nat.cast_natAbs, Int.cast_abs]
  have hsmall : k.natAbs ≤ 2 ^ 53 := by
    rw [Int.abs_eq_natAbs] at hk
    exact_mod_cast hk
  obtain ⟨n, rfl⟩ := Option.ne_none_iff_exists'.mp (h.ne_none_of_lt (by
    rw [hcast]
    exact_mod_cast hsmall))
  obtain ⟨v, hv, rfl⟩ := h.exists_of_some
  rw [hcast] at hv
  obtain rfl := hv.unique (Binary64.rounds_natCast hsmall) (Nat.cast_nonneg _)
  rw [Nat.floor_natCast]
  split
  · rename_i hneg
    have hlt : k < 0 := by exact_mod_cast hneg
    congr 1
    omega
  · rename_i hneg
    have hge : 0 ≤ k := by exact_mod_cast not_lt.mp hneg
    congr 1
    omega

end TruncatesTo

end Manpage

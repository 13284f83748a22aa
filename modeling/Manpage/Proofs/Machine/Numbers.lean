import Manpage.Proofs.Machine.Trace
import Manpage.Proofs.Number.Truncated

/-!
# Numeric arguments

A machine that reads the numeric argument of a macro has a number for it, or stops because the
number is too large for a double, or has no number and one more warning. Which of the three it is
depends on how the argument is written, and the number on the rational number that is written.

## Main definitions

* `Manpage.Machine.number` — the number of an argument, and what reading it leads to.

## Main results

* `Manpage.Machine.number_spec` — numeric arguments are read just where they are numerals, and they
  are read as their rounded numbers without the fraction.
-/

namespace Manpage

namespace Machine

variable {argument : Text} {n k : Int}

/-- The number of a numeric argument, if it has one, and the outcome of reading it. -/
def number (m : Machine) (t : Token) (argument : Text) : Option Int × Outcome :=
  ((readNumber t argument).2, m.run (readNumber t argument).1)

/-! ## Three kinds of arguments -/

/-- A fault stops a machine at once, and is no warning. -/
theorem warnings_run_fault (m : Machine) (cause : Fault) :
    (m.run [.fault cause]).fault = some cause ∧
      (m.run [.fault cause]).machine.warnings = m.warnings := by
  refine ⟨rfl, ?_⟩
  have hreports : m.unwind.reports = m.reports := congrArg Prod.snd m.records_unwind
  exact congrArg List.reverse hreports

/-- **A numeral** is read as a number, or it is too large.

**Proof sketch.** What is written as a numeral is read, to the whole part of the double next to it.
If there is none the reader fails, and changes nothing before that. -/
theorem number_literal (m : Machine) (t : Token) (s : Literal) :
    (∃ n, TruncatesTo s.value (some n) ∧ m.number t s.text = (some n, ⟨m, none⟩)) ∨
      (TruncatesTo s.value none ∧ (m.number t s.text).1 = none ∧
        (m.number t s.text).2.fault = some .numberOverflow ∧
        (m.number t s.text).2.machine.warnings = m.warnings) := by
  have hreads := s.numeral.truncatesTo
  rw [s.value_numeral] at hreads
  cases hread : s.numeral.toInt? with
  | none =>
    have hnumber : m.number t s.text = (none, m.run [.fault .numberOverflow]) := by
      simp only [number, readNumber, s.ofText?_text, hread]
    rw [hread] at hreads
    rw [hnumber]
    exact Or.inr ⟨hreads, rfl, warnings_run_fault m .numberOverflow⟩
  | some n =>
    have hnumber : m.number t s.text = (some n, m.run []) := by
      simp only [number, readNumber, s.ofText?_text, hread]
    rw [hread] at hreads
    exact Or.inl ⟨n, hreads, hnumber⟩

/-- **What is no numeral** is reported. -/
theorem number_eq_of_not_literal (m : Machine) (t : Token)
    (h : ¬ ∃ s : Literal, s.text = argument) :
    m.number t argument =
      (none, ⟨{ m with reports := .about (.notANumber argument) t :: m.reports }, none⟩) := by
  rw [number, readNumber, Literal.ofText?_eq_none_iff.mpr h]
  rfl

/-- The number of a numeral is what its value is read as. -/
theorem truncatesTo_number (m : Machine) (t : Token) (s : Literal) :
    TruncatesTo s.value (m.number t s.text).1 := by
  rcases number_literal m t s with ⟨n, hn, heq⟩ | ⟨hnone, heq, -⟩
  · rwa [heq]
  · rwa [heq]

/-- A numeral is a fault just where it has no number. -/
theorem fault_number_iff (m : Machine) (t : Token) (s : Literal) :
    (m.number t s.text).2.fault = some .numberOverflow ↔ (m.number t s.text).1 = none := by
  rcases number_literal m t s with ⟨n, -, heq⟩ | ⟨-, heq, hfault, -⟩
  · simp [heq]
  · simp [heq, hfault]

/-- An argument is read without a warning just where it is a numeral. A numeral has a value or
overflows, and anything else is warned of and has no value. -/
theorem exists_literal_iff (m : Machine) (t : Token) (argument : Text) :
    (∃ s : Literal, s.text = argument) ↔
      (m.number t argument).2.machine.warnings = m.warnings ∧
        ((m.number t argument).1 ≠ none ∨
          (m.number t argument).2.fault = some .numberOverflow) := by
  constructor
  · rintro ⟨s, rfl⟩
    rcases number_literal m t s with ⟨n, -, heq⟩ | ⟨-, -, hfault, hwarnings⟩
    · rw [heq]
      exact ⟨rfl, Or.inl (Option.some_ne_none n)⟩
    · exact ⟨hwarnings, Or.inr hfault⟩
  · rintro ⟨-, hvalue⟩
    by_contra hno
    rw [number_eq_of_not_literal m t hno] at hvalue
    simp at hvalue

/-! ## The whole -/

/-- **Numeric arguments.** An argument is read as a number, or is too large, without a warning, just
where it is a numeral: a sign or none, digits with an optional point and further digits, or a point
and digits, and a unit or none. Anything else has no number, and one warning more. The numbers of
numerals are these:

* whole numbers up to 2^53 exactly;
* for greater values, no lesser numbers;
* for a value with the other sign, the number with the other sign;
* for values less than 2^53, the whole part or the number one further away from zero;
* none, with the fault of an overflow, just from 2^1024 - 2^970 on. -/
theorem number_spec (m : Machine) (t : Token) :
    (∀ argument, (∃ s : Literal, s.text = argument) ↔
      (m.number t argument).2.machine.warnings = m.warnings ∧
        ((m.number t argument).1 ≠ none ∨
          (m.number t argument).2.fault = some .numberOverflow)) ∧
    (∀ argument, (¬ ∃ s : Literal, s.text = argument) →
      (m.number t argument).1 = none ∧ (m.number t argument).2.fault = none ∧
        (m.number t argument).2.machine.warnings =
          m.warnings ++ [.about (.notANumber argument) t]) ∧
    ∀ s : Literal,
      (∀ k : Int, s.value = k → |k| ≤ 2 ^ 53 → (m.number t s.text).1 = some k) ∧
      (∀ r : Literal, s.value ≤ r.value →
        ∀ n ∈ (m.number t s.text).1, ∀ k ∈ (m.number t r.text).1, n ≤ k) ∧
      (∀ r : Literal, r.value = -s.value →
        (m.number t r.text).1 = (m.number t s.text).1.map Neg.neg) ∧
      (|s.value| < 2 ^ 53 → ∃ n : Nat, (n = ⌊|s.value|⌋₊ ∨ n = ⌊|s.value|⌋₊ + 1) ∧
        (m.number t s.text).1 = some (if s.value < 0 then -(n : Int) else n)) ∧
      ((m.number t s.text).2.fault = some .numberOverflow ↔ 2 ^ 1024 - 2 ^ 970 ≤ |s.value|) := by
  refine ⟨exists_literal_iff m t, fun argument hno => ?_, fun s => ?_⟩
  · rw [number_eq_of_not_literal m t hno]
    exact ⟨rfl, rfl, List.reverse_cons⟩
  · have hs := truncatesTo_number m t s
    refine ⟨fun k hk hsize => ?_, fun r hle n hn k hk => ?_, fun r hr => ?_, hs.near, ?_⟩
    · rw [hk] at hs
      exact hs.of_int hsize
    · have hr := truncatesTo_number m t r
      rw [Option.mem_def.mp hn] at hs
      rw [Option.mem_def.mp hk] at hr
      exact hs.mono hr hle
    · have hneg := truncatesTo_number m t r
      rw [hr] at hneg
      exact hneg.unique hs.neg
    · rw [fault_number_iff, hs.eq_none_iff]

/-- A whole number with a unit, the same with the other sign, and what is no numeral. -/
theorem number_spec_of_whole :
    ∃ s r : Literal, s.text = "42n".toList ∧ r.text = "-42.0".toList ∧
      ∃ m : Machine, ∃ t : Token,
        (s.value = (42 : Int) ∧ |(42 : Int)| ≤ 2 ^ 53 ∧ (m.number t s.text).1 = some 42) ∧
        (r.value = -s.value ∧ (m.number t r.text).1 = (m.number t s.text).1.map Neg.neg) ∧
        (r.value ≤ s.value ∧
          ∀ n ∈ (m.number t r.text).1, ∀ k ∈ (m.number t s.text).1, n ≤ k) ∧
        (|r.value| < 2 ^ 53 ∧ ∃ n : Nat, (n = ⌊|r.value|⌋₊ ∨ n = ⌊|r.value|⌋₊ + 1) ∧
          (m.number t r.text).1 = some (if r.value < 0 then -(n : Int) else n)) ∧
        ((¬ ∃ u : Literal, u.text = "4 2".toList) ∧ (m.number t "4 2".toList).1 = none) := by
  obtain ⟨s, hs, hsvalue⟩ := Literal.exists_of_ofText?_eq
    (t := "42n".toList) (x := ⟨false, 42, 0⟩) (by decide)
  obtain ⟨r, hr, hrvalue⟩ := Literal.exists_of_ofText?_eq
    (t := "-42.0".toList) (x := ⟨true, 420, 1⟩) (by decide)
  have h42 : s.value = (42 : Int) := by
    rw [hsvalue]
    norm_num [Numeral.value]
  have hneg : r.value = -42 := by
    rw [hrvalue]
    norm_num [Numeral.value]
  have hopposite : r.value = -s.value := by
    rw [hneg, h42]
    norm_num
  have hle : r.value ≤ s.value := by
    rw [hneg, h42]
    norm_num
  have hsmall : |r.value| < 2 ^ 53 := by
    rw [hneg]
    norm_num
  have hno : ¬ ∃ u : Literal, u.text = "4 2".toList :=
    Literal.ofText?_eq_none_iff.mp (by decide)
  obtain ⟨-, hnone, hvalue⟩ := number_spec (fresh (Page.ofWidth 80) none)
    ⟨.word, "42n".toList, false, 1, 1⟩
  have hexact : |(42 : Int)| ≤ 2 ^ 53 := by decide
  exact ⟨s, r, hs, hr, fresh (Page.ofWidth 80) none, ⟨.word, "42n".toList, false, 1, 1⟩,
    ⟨h42, hexact, (hvalue s).1 42 h42 hexact⟩, ⟨hopposite, (hvalue s).2.2.1 r hopposite⟩,
    ⟨hle, (hvalue r).2.1 s hle⟩, ⟨hsmall, (hvalue r).2.2.2.1 hsmall⟩, hno, (hnone _ hno).1⟩

end Machine

end Manpage

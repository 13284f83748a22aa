import Manpage.Config.File
import Manpage.Text.Quoted
import Mathlib.Tactic.Ring

/-!
# Hexadecimal numbers of a configuration file

A decimal number is not read from a file if it has too many digits, but a hexadecimal number is,
however large it is; one that is large enough has too many decimal digits to be shown.

## Main results

* `Manpage.Config.scalar_hexadecimal` — a hexadecimal number is read whatever its size.
* `Manpage.Config.parse_hexadecimal` — a file that sets the section to one.
* `Manpage.Config.ofDigits_hex` — a hexadecimal numeral denotes its number.
-/

namespace Manpage.Config

variable {limits : Limits} {ds rest : Text}

/-- Digits are read up to what is neither a digit nor an underscore. By induction on the digits. -/
theorem digitRun_append {p : Char → Bool} (hp : p '_' = false) (hds : ∀ c ∈ ds, p c = true)
    (hrest : ∀ c ∈ rest.head?, p c = false ∧ c ≠ '_') : digitRun p (ds ++ rest) = (ds, rest) := by
  induction ds with
  | nil =>
    cases rest with
    | nil => rfl
    | cons c rest =>
      obtain ⟨hc, hne⟩ := hrest c rfl
      simp [digitRun, hc, hne]
  | cons c ds ih =>
    have hc : p c = true := hds c (by simp)
    have hne : c ≠ '_' := fun heq => by simp [heq, hp] at hc
    simp [digitRun, hc, hne, ih fun d hd => hds d (by simp [hd])]

/-- A hexadecimal number is read whatever its size.

**Proof sketch.** The second character is the mark, so that the value begins no date and no time and
is tried as a number. The run of its digits ends where something else begins, and its size is never
asked for, unlike that of a decimal number. -/
theorem scalar_hexadecimal {d e : Char} (hds : ∀ c ∈ d :: e :: ds, isHexDigit c = true)
    (hrest : ∀ c ∈ rest.head?, isHexDigit c = false ∧ c ≠ '_') :
    scalar ('0' :: 'x' :: d :: e :: (ds ++ rest)) =
      .ok (.integer (ofDigits 16 (d :: e :: ds)), rest) := by
  -- the mark is no digit, so that neither a date nor a time begins here
  have hmoment : moment? ('0' :: 'x' :: d :: e :: (ds ++ rest)) = none := rfl
  have htime : timeOfDay? ('0' :: 'x' :: d :: e :: (ds ++ rest)) = none := rfl
  have hd : isHexDigit d = true := hds d (by simp)
  have hrun := digitRun_append (p := isHexDigit) (by decide)
    (fun c hc => hds c (List.mem_cons_of_mem d hc)) hrest
  have hdigits : digits? isHexDigit (d :: e :: (ds ++ rest)) = some (d :: e :: ds, rest) := by
    rw [List.cons_append] at hrun
    simp only [digits?, hd, hrun, if_true]
  simp [scalar, hmoment, htime, number?, radixNumber?, hdigits]

/-- A text without carriage returns has no line ends to join. -/
theorem joinLineEnds_eq_self {t : Text} (h : '\r' ∉ t) : joinLineEnds t = t := by
  induction t with
  | nil => rfl
  | cons c t ih =>
    obtain ⟨hc, ht⟩ := not_or.mp (mt List.mem_cons.mpr h)
    have hne : c ≠ '\r' := fun heq => hc heq.symm
    simp [joinLineEnds, hne, ih ht]

/-- A statement that is an entry. -/
theorem statement_of_entry {draft : Draft} {c : Char} {t rest : Text} {path : List Text} {v : Value}
    {entries : Entries} (hcomment : c ≠ '#') (hheader : c ≠ '[')
    (hkey : keyOfEntry (c :: t) = .ok (path, rest)) (hvalue : value limits rest = .ok (v, []))
    (hinsert : insertUnder? draft.part v path draft.entries draft.header = some entries) :
    statement limits draft (c :: t) = .ok ({ draft with entries := entries }, []) := by
  simp [statement, hcomment, hheader, hkey, hvalue, hinsert, bind, Except.bind, accepted, pure,
    Except.pure]

/-- A file of one entry. Nothing is before the entry but its key, and nothing behind its value. -/
theorem parse_of_entry {c : Char} {t rest : Text} {path : List Text} {v : Value} {entries : Entries}
    (hstart : isGap c = false ∧ c ≠ '\n' ∧ c ≠ '#' ∧ c ≠ '[') (hreturn : '\r' ∉ c :: t)
    (hkey : keyOfEntry (c :: t) = .ok (path, rest)) (hvalue : value limits rest = .ok (v, []))
    (hinsert : insert? 0 v [] path = some entries) :
    parse limits (c :: t) = .ok (.table (entryValues entries)) := by
  obtain ⟨hgap, hnewline, hcomment, hheader⟩ := hstart
  have hstatement : statement limits ⟨[], [], 0⟩ (c :: t) = .ok (⟨entries, [], 0⟩, []) :=
    statement_of_entry hcomment hheader hkey hvalue hinsert
  have hskip : skipGaps (c :: t) = c :: t := by simp [skipGaps, hgap]
  have hend : skipComment (skipGaps []) = .ok [] := rfl
  simp [parse, joinLineEnds_eq_self hreturn, statements, hskip, hnewline, hstatement, hend, bind,
    Except.bind, pure, Except.pure]

/-- A file that sets the section to a hexadecimal number.

**Proof sketch.** The file is one entry: its key has two parts, and its value is the hexadecimal
number, with nothing behind it. It holds no carriage return, so that no line ends are joined. -/
theorem parse_hexadecimal (limits : Limits) {d e : Char}
    (hds : ∀ c ∈ d :: e :: ds, isHexDigit c = true) :
    parse limits ("render.section=0x".toList ++ d :: e :: ds) =
      .ok (.table [("render".toList, .table [("section".toList,
        .integer (ofDigits 16 (d :: e :: ds)))])]) := by
  have hreturn : '\r' ∉ "render.section=0x".toList ++ d :: e :: ds := by
    intro hmem
    rcases List.mem_append.mp hmem with hname | hdigit
    · exact absurd hname (by decide)
    · exact absurd (hds _ hdigit) (by decide)
  have hvalue : value limits ('0' :: 'x' :: d :: e :: ds) =
      .ok (.integer (ofDigits 16 (d :: e :: ds)), []) := by
    have hend : ∀ c ∈ ([] : Text).head?, isHexDigit c = false ∧ c ≠ '_' := by simp
    have hscalar := scalar_hexadecimal hds hend
    rw [List.append_nil] at hscalar
    simpa [value, valueWithin] using hscalar
  have hkey : keyOfEntry ("render.section=0x".toList ++ d :: e :: ds) =
      .ok (["render".toList, "section".toList], '0' :: 'x' :: d :: e :: ds) := by
    simp only [String.reduceToList, List.cons_append, List.nil_append, keyOfEntry, key,
      List.length_cons, keyParts, keyPart]
    rfl
  simp only [String.reduceToList, List.cons_append, List.nil_append] at hreturn hkey ⊢
  exact parse_of_entry (by decide) hreturn hkey hvalue rfl

/-- The number that digits denote with zeros behind them. By induction on the zeros, each of which
multiplies by the radix. -/
theorem ofDigits_append_zeros (radix count : Nat) (digits : Text) :
    ofDigits radix (digits ++ List.replicate count '0') =
      radix ^ count * ofDigits radix digits := by
  induction count with
  | zero => simp
  | succ count ih =>
    have hzero : radixDigit '0' = 0 := rfl
    rw [List.replicate_succ', ← List.append_assoc, ofDigits, List.foldl_append, ← ofDigits, ih,
      List.foldl_cons, List.foldl_nil, hzero, Nat.pow_succ]
    ring

/-! ## Hexadecimal numerals -/

/-- The number that digits denote with one more behind them. -/
theorem ofDigits_concat (radix : Nat) (digits : Text) (d : Char) :
    ofDigits radix (digits ++ [d]) = radix * ofDigits radix digits + radixDigit d := by
  simp [ofDigits]

/-- Zeros in front of digits do not count. -/
theorem ofDigits_zeros_append (radix count : Nat) (digits : Text) :
    ofDigits radix (List.replicate count '0' ++ digits) = ofDigits radix digits := by
  have hzeros : ofDigits radix (List.replicate count '0') = 0 := by
    simpa [ofDigits] using ofDigits_append_zeros radix count []
  rw [ofDigits, List.foldl_append, ← ofDigits, hzeros, ← ofDigits]

/-- The sixteen digits denote the numbers that they are made of. -/
theorem radixDigit_digitChar : ∀ n < 16, radixDigit (Nat.digitChar n) = n := by
  decide

/-- The digits of a number, to base sixteen, denote the number. The induction takes off the last
digit. -/
theorem ofDigits_toDigits (n : Nat) : ofDigits 16 (Nat.toDigits 16 n) = n := by
  induction n using Nat.strong_induction_on with
  | _ n ih =>
    rw [Nat.toDigits_eq_if (by decide)]
    split
    · rename_i hn
      simpa [ofDigits] using radixDigit_digitChar n hn
    · rw [ofDigits_concat, ih (n / 16) (by omega),
        radixDigit_digitChar _ (Nat.mod_lt n (by decide))]
      omega

/-- **A hexadecimal numeral** denotes its number, whatever the width that it is filled up to. -/
theorem ofDigits_hex (width n : Nat) : ofDigits 16 (Text.hex width n) = n := by
  rw [Text.hex, ofDigits_zeros_append, ofDigits_toDigits]

end Manpage.Config

import Manpage.Proofs.Number.Whole
import Manpage.Proofs.Program.Prose
import Manpage.Proofs.Token.Chunk

/-!
# Lines that ask for space

Blank lines, the paragraph macro and the macro for empty lines show nothing. Their programs record
what was read, and then have the instructions for the space.

## Main definitions

* `Manpage.Step.IsRequest` — a step on a line that has an effect and shows nothing.
* `Manpage.IsRequests` — the instructions for such lines.

## Main results

* `Manpage.isRequest_blank`, `Manpage.isRequest_paragraph`, `Manpage.isRequest_skip` — the programs
  of the three kinds of lines.
* `Manpage.exists_program_requests` — the program of several lines, and of others after them.
-/

namespace Manpage

variable {isolating : Bool} {e : List Instr}

/-- A step on a line that begins the line, records what is read and has an effect. Its frames are
complete at the end of the line. -/
structure Step.IsRequest (e : List Instr) (s : Step) : Prop where
  exists_records : ∃ records, (∀ i ∈ records, i.isRecord = true) ∧
    s.whole = .beginLine :: records ++ e
  endsAtLine : ∀ f ∈ s.frames, f.EndsAtLine

/-- A blank line. -/
theorem isRequest_blank {line : Text} (h : line.isBlank = true) (number : Nat) :
    (feedAll isolating [] (Token.ofLine number line)).IsRequest [.emptyLine] := by
  rw [Token.ofLine, if_pos h]
  refine ⟨⟨[.consume _], ?_, rfl⟩, ?_⟩
  · simp [Instr.isRecord]
  · simp [feedAll, feed, Step.top, Step.preceded]

/-- The paragraph macro by any of its names. Its line is one token, whichever name it has. -/
theorem isRequest_paragraph {name : Text}
    (h : name ∈ [['.', 'P', 'P'], ['.', 'L', 'P'], ['.', 'P']]) (number : Nat) :
    (feedAll isolating [] (Token.ofLine number name)).IsRequest
      [.setIndent 0, .plainStyle, .blankLine] := by
  have htokens : Token.ofLine number name = [⟨.macroName, name, true, number, 1⟩] := by
    simp only [List.mem_cons, List.not_mem_nil, or_false] at h
    rcases h with rfl | rfl | rfl <;> rfl
  have hfeed : feedAll isolating [] (Token.ofLine number name) =
      ⟨[.beginLine, .consume ⟨.macroName, name, true, number, 1⟩],
        [.restOfLine [.setIndent 0, .plainStyle, .blankLine]]⟩ := by
    rw [htokens]
    simp only [List.mem_cons, List.not_mem_nil, or_false] at h
    rcases h with rfl | rfl | rfl <;> rfl
  rw [hfeed]
  refine ⟨⟨[.consume _], ?_, rfl⟩, ?_⟩
  · simp [Instr.isRecord]
  · intro f hf
    obtain rfl := List.mem_singleton.mp hf
    exact Frame.endsAtLine_restOfLine _

/-- The instructions for a request for empty lines: the number of them, or a fault. -/
def skipInstrs : Option Nat → List Instr
  | some k => [.skipLines k]
  | none => [.fault .numberOverflow, .skipLines defaultSkip]

/-- The empty lines that a positive number asks for, as it is read; none where it is too large. -/
def readWhole? (n : Nat) : Option Nat :=
  (Numeral.toInt? ⟨false, n, 0⟩).map Int.toNat

/-- A positive number of empty lines is put to use as it is read, and is a fault where it cannot be.
-/
theorem settle_skip {n : Nat} (hn : 0 < n) (t : Token) :
    (Purpose.skip.settle t (some (Text.ofNat n))).1 ++
      (Purpose.skip.settle t (some (Text.ofNat n))).2 = skipInstrs (readWhole? n) := by
  simp only [Purpose.settle, readSkip, readNumber, Numeral.ofText?_ofNat, readWhole?]
  cases hread : Numeral.toInt? ⟨false, n, 0⟩ with
  | none => rfl
  | some k =>
    have hk := Numeral.pos_of_toInt?_whole hn hread
    simp [hk, skipInstrs]

/-- The line of a request for empty lines. -/
def skipLine (n : Nat) : Text :=
  ['.', 's', 'p'] ++ ([' '] ++ Text.ofNat n)

/-- A numeral is ink. -/
theorem isInk_ofNat (n : Nat) : (Text.ofNat n).isInk = true := by
  rw [Text.isInk_iff]
  intro c hc
  have hrow := Text.toNat_of_isDigit (Text.isDigit_of_mem_ofNat hc)
  simp only [isSpace, Bool.or_eq_false_iff, Bool.and_eq_false_iff, decide_eq_false_iff_not,
    beq_eq_false_iff_ne]
  omega

/-- A numeral is one lexeme, without quotes and escapes. Its digits are plain characters. -/
theorem ofChunk_ofNat (n : Nat) : Lexeme.ofChunk (Text.ofNat n) = [⟨.word, Text.ofNat n⟩] := by
  have hplain : ∀ c ∈ Text.ofNat n, Lexeme.isPlain c = true := by
    intro c hc
    have hdigit := Text.isDigit_of_mem_ofNat hc
    have hne : ∀ d : Char, d.isDigit = false → c ≠ d := by
      rintro d hd rfl
      rw [hdigit] at hd
      exact Bool.noConfusion hd
    simp [Lexeme.isPlain, hne '\\' rfl, hne '"' rfl]
  obtain ⟨c, u, heq⟩ := List.exists_cons_of_ne_nil (Nat.toDigits_ne_nil (n := n) (b := 10))
  have hnumeral : Text.ofNat n = c :: u := heq
  rw [hnumeral] at hplain ⊢
  have hu : ∀ d ∈ u, Lexeme.isPlain d = true := fun d hd => hplain d (List.mem_cons_of_mem c hd)
  rw [Lexeme.ofChunk_plain (hplain c List.mem_cons_self), List.takeWhile_eq_self_iff.mpr hu,
    List.dropWhile_eq_nil_iff.mpr hu, Lexeme.ofChunk]

/-- The tokens of a request for empty lines: the name of the macro, a blank and the number.

**Proof sketch.** The line falls into these three chunks, as ink and blanks take turns. The first is
a macro and no comment, and the number is a single word. -/
theorem ofLine_skipLine (number n : Nat) : Token.ofLine number (skipLine n) =
    [⟨.macroName, ['.', 's', 'p'], true, number, 1⟩, ⟨.blank, [' '], false, number, 4⟩,
      ⟨.word, Text.ofNat n, false, number, 5⟩] := by
  have hne : Text.ofNat n ≠ [] := Nat.toDigits_ne_nil
  have hink := isInk_ofNat n
  have hnumeral : (Text.ofNat n).splitBy sameChunk = [Text.ofNat n] := by
    have hchunk : (Text.ofNat n ++ []).splitBy sameChunk = Text.ofNat n :: [] :=
      splitBy_ink_append hne hink (by simp)
    rwa [List.append_nil] at hchunk
  have hblank : ([' '] ++ Text.ofNat n).splitBy sameChunk = [[' '], Text.ofNat n] := by
    rw [splitBy_blank_append rfl, hnumeral]
    · rfl
    · exact fun d hd => Text.isInk_iff.mp hink d (List.mem_of_mem_head? hd)
  have hsplit : (skipLine n).splitBy sameChunk = [['.', 's', 'p'], [' '], Text.ofNat n] := by
    rw [skipLine, splitBy_ink_append (by simp) (by decide) (by simp [isSpace]), hblank]
  have hnot : ¬ (skipLine n).isBlank = true := by
    simp [skipLine, show isSpace '.' = false from rfl]
  have hlast : Token.ofChunk (Text.ofNat n) false number
      (((0 + (['.', 's', 'p'] : Text).length + ([' '] : Text).length : Nat) : Int) + 1) =
        [⟨.word, Text.ofNat n, false, number, 5⟩] := by
    rw [Token.ofChunk_ink hink (fun h => Bool.noConfusion h), ofChunk_ofNat]
    rfl
  have hcomment : ¬ isComment ['.', 's', 'p'] = true := by decide
  rw [Token.ofLine, if_neg hnot, Chunk.ofLine, hsplit]
  simp only [Chunk.place, List.flatMap_cons, List.flatMap_nil, if_neg hcomment]
  rw [hlast]
  rfl

/-- The macro for empty lines with a positive number asks for as many, in its own line and without
showing anything. -/
theorem isRequest_skip {n : Nat} (hn : 0 < n) (number : Nat) :
    (feedAll isolating [] (Token.ofLine number (skipLine n))).IsRequest
      (skipInstrs (readWhole? n)) := by
  set called : Token := ⟨.macroName, ['.', 's', 'p'], true, number, 1⟩ with hcalled
  set blank : Token := ⟨.blank, [' '], false, number, 4⟩ with hblank
  set numeral : Token := ⟨.word, Text.ofNat n, false, number, 5⟩ with hnumeral
  have hfeed : feedAll isolating [] (Token.ofLine number (skipLine n)) =
      ⟨[.beginLine, .consume called, .consume blank, .consume numeral],
        [.bareArgument .skip called (Text.ofNat n)]⟩ := by
    rw [ofLine_skipLine]
    rfl
  rw [hfeed]
  refine ⟨⟨[.consume called, .consume blank, .consume numeral], ?_, ?_⟩, ?_⟩
  · simp [Instr.isRecord]
  · simp [Step.whole, finish, Frame.atEnd, settle_skip hn]
  · intro f hf
    obtain rfl := List.mem_singleton.mp hf
    exact Frame.endsAtLine_bareArgument _ _ _

/-! ## Several lines -/

/-- The instructions for lines that show nothing, with the effect of each. -/
inductive IsRequests : List (List Instr) → List Instr → Prop where
  | nil : IsRequests [] []
  | line {records e is : List Instr} {es : List (List Instr)} :
      (∀ i ∈ records, i.isRecord = true) → IsRequests es is →
        IsRequests (e :: es) (.beginLine :: records ++ e ++ is)

/-- The program of lines that show nothing, and of others after them.

**Proof sketch.** By induction on the lines. Each of them leaves only frames that end with the line,
so that its program comes before that of the lines below. -/
theorem exists_program_requests {lines : List Text} {es : List (List Instr)}
    (h : List.Forall₂ (fun line e => ∀ number : Nat,
      (feedAll isolating [] (Token.ofLine number line)).IsRequest e) lines es)
    (number : Nat) (more : List Text) :
    ∃ is, IsRequests es is ∧ program isolating (Token.ofLines number (lines ++ more)) =
      is ++ program isolating (Token.ofLines (number + lines.length) more) := by
  induction h generalizing number with
  | nil => exact ⟨[], IsRequests.nil, rfl⟩
  | @cons line e lines es hline _ ih =>
    obtain ⟨is, his, hmore⟩ := ih (number + 1)
    obtain ⟨⟨records, hrecords, hwhole⟩, hends⟩ := hline number
    refine ⟨.beginLine :: records ++ e ++ is, IsRequests.line hrecords his, ?_⟩
    have hprogram : program isolating (Token.ofLine number line) = .beginLine :: records ++ e := by
      rw [← hwhole]
      exact programFrom_eq isolating [] _
    have hlength : number + 1 + lines.length = number + (line :: lines).length := by
      rw [List.length_cons]
      omega
    rw [List.cons_append, program_ofLines _ _ _ hends, hprogram, hmore, hlength]
    simp only [List.append_assoc]

end Manpage

import Manpage.Proofs.Machine.Faults
import Manpage.Proofs.Render.Verbatim
import Manpage.Proofs.Text.LineEnds
import Manpage.Proofs.Token.Dump
import Manpage.Proofs.Token.Site

/-!
# Snippets

A snippet about a token of a source has five lines. The fourth is the line of the token and the
fifth marks the token on it, behind gutters of one width, however many digits the number of the line
has. There is room for the snippet of any fault of a source.

## Main definitions

* `Manpage.Token.gutter`, `Manpage.Token.marks` — what stands before the bar of a snippet, and what
  marks a token.
* `Manpage.aboveCarets` — the characters of a line that stand above carets.

## Main results

* `Manpage.splitLines_snippet` — the lines of a snippet.
* `Manpage.snippet_marks_token` — the token is what stands above the carets.
* `Manpage.report_eq_snippet` — what is said of a fault of a source is its snippet.
-/

namespace Manpage

variable {source message file line before after a b c d : Text} {t : Token}

/-! ## Carets -/

/-- The characters of a line that stand above the carets of another. -/
def aboveCarets (line marks : Text) : Text :=
  ((line.zip marks).filter fun p => p.2 == '^').map Prod.fst

/-- A line and its marks may be cut at the same place: what stands above carets is that of both
parts, one after the other. -/
theorem aboveCarets_append (h : a.length = b.length) :
    aboveCarets (a ++ c) (b ++ d) = aboveCarets a b ++ aboveCarets c d := by
  rw [aboveCarets, List.zip_append h, List.filter_append, List.map_append]
  rfl

/-- Nothing stands above carets where there are none. -/
theorem aboveCarets_of_not_mem (h : '^' ∉ b) : aboveCarets a b = [] := by
  rw [aboveCarets, List.map_eq_nil_iff, List.filter_eq_nil_iff]
  rintro ⟨x, y⟩ hmem heq
  obtain rfl : y = '^' := by simpa using heq
  exact h (List.of_mem_zip hmem).2

/-- Carets in a row, under the beginning of a line. -/
theorem aboveCarets_replicate (a b : Text) :
    aboveCarets (a ++ b) (List.replicate a.length '^') = a := by
  induction a with
  | nil => simp [aboveCarets]
  | cons x a ih =>
    rw [List.length_cons, List.replicate_succ, List.cons_append]
    exact congrArg (x :: ·) ih

namespace Token

/-- What stands before the bar of a snippet where no number does. -/
def gutter (t : Token) : Text :=
  Text.spaces ((Text.ofInt t.line).length + 1)

/-- The carets of a snippet, behind as many spaces as characters stand before the token. -/
def marks (t : Token) : Text :=
  Text.spaces (t.column - 1).toNat ++ List.replicate (max 1 t.value.length) '^'

/-- Spaces are no other character. -/
theorem not_mem_spaces {x : Char} (hx : x ≠ ' ') (n : Nat) : x ∉ Text.spaces n :=
  fun h => hx (List.eq_of_mem_replicate h)

/-- The marks of a token are spaces and carets. -/
theorem mem_marks {x : Char} (h : x ∈ t.marks) : x = ' ' ∨ x = '^' := by
  rcases List.mem_append.mp h with h | h
  · exact Or.inl (List.eq_of_mem_replicate h)
  · exact Or.inr (List.eq_of_mem_replicate h)

/-- A token has as many carets as characters, and one where it has no characters. -/
theorem count_marks (t : Token) : t.marks.count '^' = max 1 t.value.length := by
  have hspaces : (Text.spaces (t.column - 1).toNat).count '^' = 0 :=
    List.count_eq_zero.mpr (not_mem_spaces (by decide) _)
  rw [marks, List.count_append, hspaces, List.count_replicate_self, Nat.zero_add]

/-- A token stands above its carets. The spaces of the marks are as many as the characters before
it, and the carets as many as its own. -/
theorem StandsOn.aboveCarets_marks (h : t.StandsOn line before after) (hne : t.value ≠ []) :
    aboveCarets line t.marks = t.value := by
  have hbefore : (t.column - 1).toNat = before.length := by
    rw [h.column_eq, Int.add_sub_cancel, Int.toNat_natCast]
  have hlength : max 1 t.value.length = t.value.length :=
    Nat.max_eq_right (List.length_pos_iff.mpr hne)
  rw [h.line_eq, List.append_assoc, marks, hbefore, hlength,
    aboveCarets_append (Text.length_spaces _).symm,
    aboveCarets_of_not_mem (not_mem_spaces (by decide) _), List.nil_append,
    aboveCarets_replicate]

end Token

/-! ## The lines of a snippet -/

/-- The text of a snippet has five lines where its message and its file name have one.

**Proof sketch.** The snippet has four line feeds. None of the texts between them ends a line: fixed
texts, numerals, spaces and carets do not, and the message, the file name and the source line are
assumed not to. -/
theorem splitLines_snippet (hmessage : ∀ c ∈ message, isLineEnd c = false)
    (hfile : ∀ c ∈ file, isLineEnd c = false)
    (hline : ∀ c ∈ sourceLine source t.line, isLineEnd c = false) :
    (snippet message (some t) source file).splitLines =
      [ "error: ".toList ++ message,
        t.gutter ++ "--> ".toList ++ file ++ [':'] ++ Text.ofInt t.line ++ [':']
          ++ Text.ofInt t.column,
        t.gutter ++ ['|'],
        Text.ofInt t.line ++ [' ', '|', ' '] ++ sourceLine source t.line,
        t.gutter ++ ['|', ' '] ++ t.marks ] := by
  have hnumber : ∀ n : Int, ∀ c ∈ Text.ofInt n, isLineEnd c = false :=
    fun n c hc => Text.isLineEnd_of_mem_ofInt hc
  have herror : ∀ c ∈ "error: ".toList, isLineEnd c = false := by simp [isLineEnd]
  have harrow : ∀ c ∈ "--> ".toList, isLineEnd c = false := by simp [isLineEnd]
  have hbar : ∀ c ∈ ['|'], isLineEnd c = false := by simp [isLineEnd]
  have hsecond : ∀ c ∈ ['|', ' '], isLineEnd c = false := by simp [isLineEnd]
  have hthird : ∀ c ∈ [' ', '|', ' '], isLineEnd c = false := by simp [isLineEnd]
  have hcolon : ∀ c ∈ [':'], isLineEnd c = false := by simp [isLineEnd]
  have hgutter : ∀ c ∈ t.gutter, isLineEnd c = false := by
    intro c hc
    obtain rfl := List.eq_of_mem_replicate hc
    rfl
  have hmarks : ∀ c ∈ t.marks, isLineEnd c = false := by
    intro c hc
    rcases Token.mem_marks hc with rfl | rfl
    · rfl
    · rfl
  have hsnippet : snippet message (some t) source file =
      ("error: ".toList ++ message) ++ '\n' ::
        ((t.gutter ++ "--> ".toList ++ file ++ [':'] ++ Text.ofInt t.line ++ [':']
          ++ Text.ofInt t.column) ++ '\n' ::
        ((t.gutter ++ ['|']) ++ '\n' ::
        ((Text.ofInt t.line ++ [' ', '|', ' '] ++ sourceLine source t.line) ++ '\n' ::
        (t.gutter ++ ['|', ' '] ++ t.marks)))) := by
    unfold snippet
    -- the fixed texts are left closed, or they would be unfolded at every step
    generalize "error: ".toList = error
    generalize "--> ".toList = arrow
    simp only [Token.gutter, Token.marks, List.append_assoc, List.cons_append, List.nil_append]
  rw [hsnippet, Text.splitLines_append_newline, Text.splitLines_append_newline,
    Text.splitLines_append_newline, Text.splitLines_append_newline,
    Text.splitLines_of_not_isLineEnd _ (by simp)]
  all_goals simp only [List.forall_mem_append]
  · exact ⟨⟨hgutter, hsecond⟩, hmarks⟩
  · exact ⟨⟨hnumber _, hthird⟩, hline⟩
  · exact ⟨hgutter, hbar⟩
  · exact ⟨⟨⟨⟨⟨⟨hgutter, harrow⟩, hfile⟩, hcolon⟩, hnumber _⟩, hcolon⟩, hnumber _⟩
  · exact ⟨herror, hmessage⟩

/-- **Snippets point at their tokens.** A snippet about a token of a source, with a message and a
file name that end no line, has five lines. The fourth has the source line of the token behind its
gutter, the fifth spaces and carets behind a gutter as wide as the other, whatever the number of the
line is; and just the characters of the token stand above the carets. A token without characters has
one caret, at its column. -/
theorem snippet_marks_token (ht : t ∈ Token.ofSource source)
    (hmessage : ∀ c ∈ message, isLineEnd c = false) (hfile : ∀ c ∈ file, isLineEnd c = false) :
    ∃ line : Text, 1 ≤ t.line ∧ source.splitLines[(t.line - 1).toNat]? = some line ∧
      (snippet message (some t) source file).splitLines =
        [ "error: ".toList ++ message,
          t.gutter ++ "--> ".toList ++ file ++ [':'] ++ Text.ofInt t.line ++ [':']
            ++ Text.ofInt t.column,
          t.gutter ++ ['|'],
          Text.ofInt t.line ++ [' ', '|', ' '] ++ line,
          t.gutter ++ ['|', ' '] ++ t.marks ] ∧
      (Text.ofInt t.line ++ [' ', '|', ' ']).length = (t.gutter ++ ['|', ' ']).length ∧
      (∀ c ∈ t.marks, c = ' ' ∨ c = '^') ∧
      (t.value ≠ [] →
        aboveCarets (Text.ofInt t.line ++ [' ', '|', ' '] ++ line)
          (t.gutter ++ ['|', ' '] ++ t.marks) = t.value ∧
        t.marks.count '^' = t.value.length) ∧
      (t.value = [] → 1 ≤ t.column ∧ t.marks = Text.spaces (t.column - 1).toNat ++ ['^']) := by
  obtain ⟨k, line, before, after, hline, hnumber, hstands⟩ := Token.exists_standsOn ht
  have hsource : sourceLine source t.line = line := by rw [hnumber, sourceLine_eq hline]
  have hindex : (t.line - 1).toNat = k := by omega
  have hends : ∀ c ∈ sourceLine source t.line, isLineEnd c = false := by
    rw [hsource]
    exact fun c hc => (Text.mem_splitLines (List.mem_of_getElem? hline) c hc).2
  have hgutters : (Text.ofInt t.line ++ [' ', '|', ' ']).length =
      (t.gutter ++ ['|', ' ']).length := by
    simp [Token.gutter]
  refine ⟨line, by omega, hindex ▸ hline, ?_, hgutters, fun c => Token.mem_marks, fun hne => ?_,
    fun hnil => ?_⟩
  · rw [splitLines_snippet hmessage hfile hends, hsource]
  · -- no caret is in the gutter, so only the marks count
    have hbar : '^' ∉ t.gutter ++ ['|', ' '] := by
      simpa [Token.gutter] using Token.not_mem_spaces (by decide) _
    refine ⟨?_, ?_⟩
    · rw [aboveCarets_append hgutters, aboveCarets_of_not_mem hbar, List.nil_append,
        hstands.aboveCarets_marks hne]
    · rw [Token.count_marks, Nat.max_eq_right (List.length_pos_iff.mpr hne)]
  · refine ⟨by rw [hstands.column_eq]; omega, ?_⟩
    rw [Token.marks, hnil]
    rfl

/-- A macro on the second line of a source, and the empty line behind it. -/
theorem snippet_marks_token_of_macro_and_blank :
    let source := "a\n.XY b\n\n".toList
    let called : Token := ⟨.macroName, ".XY".toList, true, 2, 1⟩
    let empty : Token := ⟨.emptyLine, [], true, 3, 1⟩
    (called ∈ Token.ofSource source ∧
      aboveCarets "2 | .XY b".toList ("  | ".toList ++ called.marks) = ".XY".toList) ∧
    (empty ∈ Token.ofSource source ∧ empty.marks = ['^']) := by
  intro source called empty
  have hcalled : called ∈ Token.ofSource source := by decide +kernel
  have hempty : empty ∈ Token.ofSource source := by decide +kernel
  have hmessage : ∀ c ∈ ['o', 'd', 'd'], isLineEnd c = false := by simp [isLineEnd]
  have hfile : ∀ c ∈ ['a', '.', '1'], isLineEnd c = false := by simp [isLineEnd]
  obtain ⟨line, -, hline, -, -, -, hmarks, -⟩ := snippet_marks_token hcalled hmessage hfile
  obtain ⟨-, -, -, -, -, -, -, hsingle⟩ := snippet_marks_token hempty hmessage hfile
  obtain rfl : ".XY b".toList = line := Option.some.inj hline
  exact ⟨⟨hcalled, (hmarks (by decide)).1⟩, hempty, (hsingle rfl).2⟩

/-! ## Room for snippets -/

/-- A token of a source has room for a snippet: it stands on a line, behind no more characters than
the source has. -/
theorem Overlong.ofToken?_eq_none (ht : t ∈ Token.ofSource source)
    (hsource : source.length < Overlong.memoryBound) : Overlong.ofToken? t = none := by
  obtain ⟨k, line, before, after, hline, -, hstands⟩ := Token.exists_standsOn ht
  have hbefore : before.length ≤ source.length := by
    have hshort := Text.length_le_of_getElem?_splitLines hline
    rw [hstands.line_eq, List.length_append, List.length_append] at hshort
    omega
  have hcolumn : t.column - 1 = before.length := by
    rw [hstands.column_eq, Int.add_sub_cancel]
  have hmemory : Overlong.memoryBound < Overlong.countBound := by decide +kernel
  have hcounted : ¬ ((before.length : Int) < -Overlong.countBound ∨
      Overlong.countBound ≤ (before.length : Int)) := by omega
  have hheld : ¬ Overlong.memoryBound ≤ (before.length : Int) := by omega
  simp only [Overlong.ofToken?, hcolumn, Bool.or_eq_true, decide_eq_true_eq, if_neg hcounted,
    if_neg hheld]

/-- **Faults of sources have snippets.** What is said of a fault of a source is the snippet about
its token, unless the source is too long to be held. -/
theorem report_eq_snippet {requested : Option Section} {width : Int} {cause : Fault}
    (h : (interpretSource source requested width).fault = some cause)
    (hsource : source.length < Overlong.memoryBound) :
    cause.report source file = snippet cause.message cause.token? source file := by
  have hordinary := isOrdinary_of_interpretSource h
  cases cause with
  | numberOverflow => rfl
  | marginUnderflow t =>
    have hroom : Overlong.ofToken? t = none := Overlong.ofToken?_eq_none hordinary.1 hsource
    simp only [Fault.report, Fault.token?, Option.bind_some, hroom]
  | alreadyConsumed | missingArgument | strayPart => exact hordinary.elim

end Manpage

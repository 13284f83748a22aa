import Manpage.Proofs.Machine.Keeping
import Manpage.Proofs.Render.Prose

/-!
# Lines rendered as they are

Where lines are kept, lines that fit are rendered as they are written, but for the backslashes,
which are doubled, and for the blanks at their ends.

## Main results

* `Manpage.isRequest_noFill` — the program of the line that has lines kept.
* `Manpage.render_of_splitLines` — what a source is rendered as that has lines kept.
* `Manpage.render_verbatim` — the same for the lines written one after another.
-/

namespace Manpage

variable {isolating : Bool} {source line : Text} {lines : List Text} {width : Int}

/-! ## Lines that are written -/

namespace Text

/-- A text without a line end is a line. By induction on the text, as no character ends it. -/
theorem splitLines_of_not_isLineEnd (h : ∀ c ∈ line, isLineEnd c = false) (hne : line ≠ []) :
    splitLines line = [line] := by
  induction line with
  | nil => exact absurd rfl hne
  | cons c line ih =>
    have hc : isLineEnd c = false := h c List.mem_cons_self
    have hcr : ∀ t, c = '\r' → line = '\n' :: t → False := by
      rintro t rfl -
      exact absurd hc (by decide)
    rw [splitLines, if_neg (by simp [hc])]
    · by_cases hline : line = []
      · rw [hline]
        rfl
      · rw [ih (fun d hd => h d (List.mem_cons_of_mem c hd)) hline]
    · exact hcr

/-- Lines that are joined are read back, except for an empty one at the end. A line feed stands
behind each of them but the last. -/
theorem splitLines_join {ls : List Text} (h : ∀ l ∈ ls, ∀ c ∈ l, isLineEnd c = false)
    (hne : ls ≠ []) : splitLines (join ['\n'] ls) = ls ∨
      ∃ front, ls = front ++ [[]] ∧ splitLines (join ['\n'] ls) = front := by
  obtain ⟨front, l, rfl⟩ : ∃ front l, ls = front ++ [l] :=
    ⟨ls.dropLast, ls.getLast hne, (List.dropLast_append_getLast hne).symm⟩
  have hfront : ∀ a ∈ front, ∀ c ∈ a, isLineEnd c = false :=
    fun a ha => h a (List.mem_append_left _ ha)
  have hl : ∀ c ∈ l, isLineEnd c = false := h l (by simp)
  rw [join_append_singleton, splitLines_flatMap_append hfront]
  by_cases hnil : l = []
  · subst hnil
    exact Or.inr ⟨front, rfl, List.append_nil front⟩
  · exact Or.inl (by rw [splitLines_of_not_isLineEnd hl hnil])

/-- Lines that are joined, with a line feed behind the last, are read back. -/
theorem splitLines_join_append {ls : List Text} (h : ∀ l ∈ ls, ∀ c ∈ l, isLineEnd c = false)
    (hne : ls ≠ []) : splitLines (join ['\n'] ls ++ ['\n']) = ls := by
  obtain ⟨front, l, rfl⟩ : ∃ front l, ls = front ++ [l] :=
    ⟨ls.dropLast, ls.getLast hne, (List.dropLast_append_getLast hne).symm⟩
  have hlines := splitLines_flatMap_append h []
  rw [List.append_nil, List.flatMap_append, List.flatMap_singleton, ← List.append_assoc,
    ← join_append_singleton] at hlines
  exact hlines.trans (List.append_nil _)

/-- At the end of a text, an empty line is as good as none. -/
theorem stripRight_join_append_nil (ls : List Text) :
    stripRight (join ['\n'] (ls ++ [[]])) = stripRight (join ['\n'] ls) := by
  have hended := stripRight_ended ls.reverse []
  rwa [ended_of_isBlank isBlank_nil, List.reverse_reverse, ← join_append_singleton] at hended

/-- Doubling backslashes ends no line. -/
theorem isLineEnd_of_mem_doubled (h : ∀ c ∈ line, isLineEnd c = false) :
    ∀ c ∈ line.doubled, isLineEnd c = false :=
  fun c hc => h c (mem_doubled.mp hc)

end Text

/-! ## The beginning -/

/-- The line that has lines kept. Its line is one token, and the effects come at the end of the
line. -/
theorem isRequest_noFill (number : Nat) :
    (feedAll isolating [] (Token.ofLine number ".nf".toList)).IsRequest
      [.lineBreak, .setNoFill true] := by
  have hfeed : feedAll isolating [] (Token.ofLine number ".nf".toList) =
      ⟨[.beginLine, .consume ⟨.macroName, ".nf".toList, true, number, 1⟩],
        [.restOfLine [.lineBreak, .setNoFill true]]⟩ := rfl
  rw [hfeed]
  refine ⟨⟨[.consume _], by simp [Instr.isRecord], rfl⟩, fun f hf => ?_⟩
  obtain rfl := List.mem_singleton.mp hf
  exact Frame.endsAtLine_restOfLine _

/-- From its beginning on, a machine that is to keep lines keeps them. -/
theorem Machine.start_keeps (width : Int) (t : Token) :
    ((Machine.start width).exec
      [.beginLine, .consume t, .lineBreak, .setNoFill true]).Keeps (max 1 width).toNat [] [] :=
  ⟨rfl, ⟨rfl, (Page.accounted_startLine (Page.ofWidth width)).pure⟩, rfl, rfl, rfl⟩

/-! ## Copied lines -/

/-- **Lines that are kept.** A source that has lines kept from its beginning on is rendered as these
lines, without the blanks at their ends and without the empty lines at the end.

**Proof sketch.** The program of the source begins each line of the page anew and puts the blanks
and words of the line on it. The lines are no longer than those of the page, so the page has these
lines and no others. -/
theorem render_of_splitLines
    (hsource : source.splitLines = ".nf".toList :: lines.map Text.doubled)
    (hends : ∀ line ∈ lines, ∀ c ∈ line, isLineEnd c = false)
    (hlength : ∀ line ∈ lines, line.length ≤ (max 1 width).toNat)
    (hpoint : ∀ line ∈ lines, line.head? ≠ some '.') :
    render source none width =
      .ok (Text.join ['\n'] (lines.map Text.stripRight)).stripRight := by
  obtain ⟨is, his, hlines⟩ := exists_isCopy_ofLines hpoint false 2
  set t : Token := ⟨.macroName, ".nf".toList, true, 1, 1⟩ with ht
  -- the first line is the request, and the others are copied
  have hprogram : program false (Token.ofSource source) =
      [.beginLine, .consume t, .lineBreak, .setNoFill true] ++ is := by
    have hrequest : (feedAll false [] (Token.ofLine 1 ".nf".toList)).IsRequest
        [.lineBreak, .setNoFill true] := isRequest_noFill 1
    rw [Token.ofSource, hsource, program_ofLines _ _ _ hrequest.endsAtLine, hlines]
    rfl
  have hplain : ∀ i ∈ [.beginLine, .consume t, .lineBreak, .setNoFill true] ++ is,
      i.isPlain = true := by
    intro i hi
    rcases List.mem_append.mp hi with hi | hi
    · simp only [List.mem_cons, List.not_mem_nil, or_false] at hi
      rcases hi with rfl | rfl | rfl | rfl <;> rfl
    · exact his.isPlain i hi
  have heq : interpretSource source none width = ⟨(Machine.start width).exec _, none⟩ :=
    interpretSource_eq hprogram fun i hi => Instr.isSafe_of_isPlain (hplain i hi)
  -- no instruction sets a font, so the text of the page is that of its lines
  have hpage : ((Machine.start width).exec
      ([.beginLine, .consume t, .lineBreak, .setNoFill true] ++ is)).IsPlain :=
    Machine.IsPlain.exec ⟨Page.isPlain_ofWidth width, fun _ => List.not_mem_nil⟩
      fun i hi => Instr.setsFont_of_isPlain (hplain i hi)
  rw [Machine.exec_append] at heq hpage
  obtain ⟨done, line, hkeeps, hended⟩ := (Machine.start_keeps width t).copy his hends hlength
  have hfinished := congrArg Sheet.finished hkeeps.sheet_eq
  have hcurrent := congrArg Sheet.line hkeeps.sheet_eq
  simp only [Page.sheet] at hfinished hcurrent
  rw [render_eq_ok_iff, heq]
  refine ⟨rfl, ?_⟩
  rw [Page.text_of_isPlain hpage.page, hfinished, hcurrent, hended,
    Text.ended_of_isBlank Text.isBlank_nil, List.append_nil, List.reverse_reverse]

/-- **Lines kept verbatim.** Lines that are no longer than those of the page and do not begin with a
point are written with their backslashes doubled, below the line that has lines kept. They are
rendered as they were, each without the blanks at its end, and without the empty lines at the
end. -/
theorem render_verbatim (lines : List Text) (width : Int) (last : Text)
    (hlast : last = [] ∨ last = ['\n'])
    (hends : ∀ line ∈ lines, ∀ c ∈ line, isLineEnd c = false)
    (hlength : ∀ line ∈ lines, (line.length : Int) ≤ max 1 width)
    (hpoint : ∀ line ∈ lines, line.head? ≠ some '.') :
    render (Text.join ['\n'] (".nf".toList :: lines.map Text.doubled) ++ last) none width =
      .ok (Text.join ['\n'] (lines.map Text.stripRight)).stripRight := by
  have hfits : ∀ line ∈ lines, line.length ≤ (max 1 width).toNat := fun line hline => by
    have hline := hlength line hline
    omega
  have hall : ∀ l ∈ ".nf".toList :: lines.map Text.doubled, ∀ c ∈ l, isLineEnd c = false := by
    intro l hl
    rcases List.mem_cons.mp hl with rfl | hl
    · show ∀ c ∈ ['.', 'n', 'f'], isLineEnd c = false
      simp [isLineEnd]
    · obtain ⟨line, hline, rfl⟩ := List.mem_map.mp hl
      exact Text.isLineEnd_of_mem_doubled (hends line hline)
  have hne : ".nf".toList :: lines.map Text.doubled ≠ [] := by simp
  rcases hlast with rfl | rfl
  · rw [List.append_nil]
    rcases Text.splitLines_join hall hne with hsplit | ⟨front, hfront, hsplit⟩
    · exact render_of_splitLines hsplit hends hfits hpoint
    · -- an empty line at the end is not read, and would not be rendered either
      rcases List.eq_nil_or_concat' lines with rfl | ⟨more, l, rfl⟩
      · exact render_of_splitLines rfl hends hfits hpoint
      · rw [List.map_append, ← List.cons_append] at hfront
        obtain ⟨hread, hl⟩ := List.append_inj' hfront rfl
        obtain rfl : l = [] := Text.doubled_eq_nil_iff.mp (List.singleton_inj.mp hl)
        have hmore : ∀ line ∈ more, line ∈ more ++ [[]] :=
          fun line hline => List.mem_append_left _ hline
        have hstripped : (more ++ [[]]).map Text.stripRight = more.map Text.stripRight ++ [[]] := by
          simp
        rw [hstripped, Text.stripRight_join_append_nil]
        exact render_of_splitLines (hsplit.trans hread.symm)
          (fun line hline => hends line (hmore line hline))
          (fun line hline => hfits line (hmore line hline))
          (fun line hline => hpoint line (hmore line hline))
  · exact render_of_splitLines (Text.splitLines_join_append hall hne) hends hfits hpoint

/-- Empty lines, at the beginning and in a row, blanks before and between words, quotes, and lines
as wide as the page. -/
theorem render_verbatim_of_five_lines :
    let lines : List Text :=
      ["".toList, "  a\t\\fB ".toList, "".toList, "\"\" \\\"b".toList, "x. ".toList]
    let source := Text.join ['\n'] (".nf".toList :: lines.map Text.doubled) ++ ['\n']
    (source = ".nf\n\n  a\t\\\\fB \n\n\"\" \\\\\"b\nx. \n".toList ∧
      (∀ line ∈ lines, (line.length : Int) ≤ max 1 8)) ∧
    render source none 8 = .ok "\n  a\t\\fB\n\n\"\" \\\"b\nx.".toList :=
  ⟨⟨rfl, by decide⟩,
    render_verbatim _ 8 ['\n'] (Or.inr rfl) (by simp [isLineEnd]) (by decide) (by decide)⟩

end Manpage

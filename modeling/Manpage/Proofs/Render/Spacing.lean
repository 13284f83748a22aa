import Manpage.Proofs.Machine.Spaced
import Manpage.Proofs.Render.Lines

/-!
# The blanks of a rendered source

No line that a source is rendered as ends in blanks. Where all lines are filled, blanks separate
words and empty lines separate others, in the numbers that the source asks for.

## Main results

* `Manpage.render_spacing` — the blanks and empty lines of every rendered text.
-/

namespace Manpage

variable {source text : Text} {requested : Option Section} {width : Int}

/-- No line of a rendered text ends in blanks, with its control sequences or without them. Each line
was finished without the blanks at its end, or is the current one, whose blanks the text is stripped
of. -/
theorem stripRight_of_render (hsource : '\x1b' ∉ source)
    (h : render source requested width = .ok text) {l : Text} (hl : l ∈ text.splitOn '\n') :
    l.stripRight = l ∧ (Text.eraseControls l).stripRight = Text.eraseControls l := by
  obtain ⟨hfault, rfl⟩ := render_eq_ok_iff.mp h
  have htidy : Page.Tidy source _ := ((Page.steady_tidy source).interpretSource
    (Page.tidy_ofWidth source width) hfault).holds
  rcases htidy.exists_of_mem_splitOn hl with rfl | ⟨line, hline, rfl⟩
  · simp
  · rw [htidy.eraseControls_showLine hsource hline]
    exact ⟨htidy.stripRight_showLine hline, htidy.stripRight_lineText hline⟩

/-- **Spacing is normal.** For every source without the escape character, every section and width,
no line of the rendered text ends in blanks. If no macro has lines kept as they are, the text does
not begin with an empty line; empty lines come one at a time, or as many in a row as some macro asks
for; and after the first ink of a line a blank is a single space behind ink.

**Proof sketch.** The changes of a page keep it tidy, so no line ends in blanks. Where lines are
filled, every instruction leaves the page evenly spaced: a space comes onto it behind ink only, and
a line is ended only if it holds ink, but for the empty lines that are asked for. -/
theorem render_spacing (hsource : '\x1b' ∉ source)
    (h : render source requested width = .ok text) :
    (∀ line : Text, line ∈ text.splitOn '\n' →
        line.stripRight = line ∧ (Text.eraseControls line).stripRight = Text.eraseControls line) ∧
      ((∀ t ∈ Token.ofSource source, t.called? ≠ some .noFill) →
        text.head? ≠ some '\n' ∧
        (∀ (front : List Text) (k : Nat) (back : List Text),
          text.splitOn '\n' = front ++ (List.replicate k [] ++ back) → 0 < k →
          front.getLast? ≠ some [] → back.head? ≠ some [] →
          k = 1 ∨ IsSkipCount requested.isSome (Token.ofSource source) k) ∧
        ∀ line : Text, line ∈ text.splitOn '\n' →
          line.IsEvenlySpaced ∧ (Text.eraseControls line).IsEvenlySpaced) := by
  refine ⟨fun line hline => stripRight_of_render hsource h hline, fun hfill => ?_⟩
  obtain ⟨hfault, rfl⟩ := render_eq_ok_iff.mp h
  have htidy : Page.Tidy source _ := ((Page.steady_tidy source).interpretSource
    (Page.tidy_ofWidth source width) hfault).holds
  have hspaced := spaced_interpretSource hfill hfault
  refine ⟨?_, ?_, fun line hline => hspaced.isEvenlySpaced htidy hsource hline⟩
  · exact hspaced.head?_text_ne htidy
  · intro front k back heq hk hfront hback
    exact hspaced.eq_one_or_of_run htidy heq hk hfront hback

/-- Three empty lines that a macro asks for. -/
theorem render_spacing_of_skip :
    ('\x1b' ∉ "a  b\n.sp 3\nc\n".toList ∧
      render "a  b\n.sp 3\nc\n".toList none 8 = .ok "a b\n\n\n\nc".toList ∧
      ∀ t ∈ Token.ofSource "a  b\n.sp 3\nc\n".toList, t.called? ≠ some .noFill) ∧
    (∀ line : Text, line ∈ "a b\n\n\n\nc".toList.splitOn '\n' →
      line.stripRight = line ∧ (Text.eraseControls line).stripRight = Text.eraseControls line) ∧
    "a b\n\n\n\nc".toList.head? ≠ some '\n' ∧
    (∀ (front : List Text) (k : Nat) (back : List Text),
      "a b\n\n\n\nc".toList.splitOn '\n' = front ++ (List.replicate k [] ++ back) → 0 < k →
      front.getLast? ≠ some [] → back.head? ≠ some [] →
      k = 1 ∨ IsSkipCount false (Token.ofSource "a  b\n.sp 3\nc\n".toList) k) ∧
    ∀ line : Text, line ∈ "a b\n\n\n\nc".toList.splitOn '\n' →
      line.IsEvenlySpaced ∧ (Text.eraseControls line).IsEvenlySpaced := by
  have hsource : '\x1b' ∉ "a  b\n.sp 3\nc\n".toList := by decide
  have hrender : render "a  b\n.sp 3\nc\n".toList none 8 =
      .ok "a b\n\n\n\nc".toList := by decide +kernel
  have hfill : ∀ t ∈ Token.ofSource "a  b\n.sp 3\nc\n".toList,
      t.called? ≠ some .noFill := by decide +kernel
  have hspacing := render_spacing hsource hrender
  exact ⟨⟨hsource, hrender, hfill⟩, hspacing.1, hspacing.2 hfill⟩

end Manpage

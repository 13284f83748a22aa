import Manpage.Proofs.Program.Argument
import Manpage.Proofs.Program.Scopes
import Manpage.Proofs.Prose.Line
import Manpage.Proofs.Token.First

/-!
# Tagged paragraphs

The line after the macro of a tagged paragraph is its tag. What the line amounts to stands between
the instruction that begins the tag and the one that ends it; the lines behind it are read as lines
at the beginning of a source are.

## Main results

* `Manpage.feedAll_tag` — a line of text that is a tag.
* `Manpage.exists_program_tagged` — the program of a tagged paragraph.
-/

namespace Manpage

variable {isolating : Bool} {f : Frame} {fs : List Frame} {t u : Token} {ts us rest : List Token}

/-! ## Lines above other frames -/

/-- A token within a line of text goes to the line or to what lies above it. -/
theorem exists_feed_above_line (isolating : Bool) (fs : List Frame) (ht : t.startsLine = false) :
    ∃ out gs, ∀ below, feed isolating (fs ++ .line :: below) t = ⟨out, gs ++ .line :: below⟩ := by
  rcases feed_cases isolating fs t with ⟨s, hfeed⟩ | ⟨out, hfeed⟩
  · exact ⟨s.out, s.frames, fun below => hfeed (.line :: below)⟩
  · refine ⟨out ++ (Step.line isolating t).out, (Step.run isolating t).frames, fun below => ?_⟩
    rw [hfeed]
    simp [feed, Frame.react, ht, Step.line, Step.above]

/-- What the tokens of a line of text amount to does not depend on the frames below the line. By
induction on the tokens: on a line none of them comes to the frames below. -/
theorem exists_feedAll_above_line (isolating : Bool) (fs : List Frame)
    (hts : ∀ t ∈ ts, t.startsLine = false) : ∃ out gs, ∀ below,
      feedAll isolating (fs ++ .line :: below) ts = ⟨out, gs ++ .line :: below⟩ := by
  induction ts generalizing fs with
  | nil => exact ⟨[], fs, fun _ => rfl⟩
  | cons t ts ih =>
    obtain ⟨ht, hts⟩ := List.forall_mem_cons.mp hts
    obtain ⟨out, gs, hfeed⟩ := exists_feed_above_line isolating fs ht
    obtain ⟨more, hs, hrest⟩ := ih gs hts
    refine ⟨out ++ more, hs, fun below => ?_⟩
    rw [feedAll_cons, hfeed]
    simp only [hrest]

/-- Tokens on a line of text, above other frames. The frame of the line takes all that comes to it.
-/
theorem feedAll_line_append (hts : ∀ t ∈ ts, t.startsLine = false) (below : List Frame) :
    feedAll isolating ((Step.line isolating t).frames ++ below) ts =
      ⟨(feedAll isolating (Step.line isolating t).frames ts).out,
        (feedAll isolating (Step.line isolating t).frames ts).frames ++ below⟩ := by
  obtain ⟨out, gs, hfeed⟩ :=
    exists_feedAll_above_line isolating (Step.run isolating t).frames hts
  have hframes : ∀ below, (Step.line isolating t).frames ++ below =
      (Step.run isolating t).frames ++ .line :: below := by simp [Step.line, Step.above]
  have hnil := hframes []
  rw [List.append_nil] at hnil
  rw [hframes, hfeed, hnil, hfeed]
  simp

/-- **A tag.** A line of text is taken as a tag, and amounts to what it would amount to at the
beginning of a source. -/
theorem feedAll_tag (hk : t.kind ≠ .macroName) (hempty : t.kind ≠ .emptyLine)
    (hts : ∀ t ∈ ts, t.startsLine = false) (below : List Frame) :
    feedAll isolating (.tag :: below) (t :: ts) =
      ⟨(readLine isolating (t :: ts)).out, (readLine isolating (t :: ts)).frames ++ below⟩ := by
  have hreact : Frame.tag.react isolating t = .take (Step.line isolating t) := by
    unfold Frame.react
    cases hkind : t.kind <;> first | rfl | contradiction
  rw [feedAll_cons, feed, hreact]
  simp only [feedAll_line_append hts, readLine]

/-! ## Tagged paragraphs -/

/-- No line of prose is a comment. -/
theorem Prose.Line.isCommentLine_source (l : Prose.Line) : isCommentLine l.source = false := by
  unfold isCommentLine Chunk.ofLine
  cases hsplit : l.source.splitBy sameChunk with
  | nil => rfl
  | cons m ms => exact (l.isComment_of_splitBy hsplit).2

variable {tag : Prose.Line}

/-- The line of a tag, where it is taken as one. It is read as a line of text above whatever is
below. -/
theorem Prose.Line.exists_readLine (l : Prose.Line) (isolating : Bool) (number : Nat) :
    ∃ u us, Token.ofLine number l.source = u :: us ∧ u.startsLine = true ∧
      IsText l.meanings (readLine isolating (u :: us)).whole ∧
      (∀ f ∈ (readLine isolating (u :: us)).frames, f.EndsAtLine) ∧
      ∀ below, feedAll isolating (.tag :: below) (u :: us) =
        ⟨(readLine isolating (u :: us)).out, (readLine isolating (u :: us)).frames ++ below⟩ := by
  obtain ⟨u, us, htokens, hl, hk, hempty, hus⟩ := Token.exists_ofLine_eq_cons number
    l.isBlank_source l.isCommentLine_source l.head?_source
  obtain ⟨⟨is, hprogram, his⟩, hline⟩ := l.exists_program isolating number
  rw [htokens, feedAll_nil_line hl hk hempty] at hline
  rw [htokens, program, programFrom_eq, feedAll_nil_line hl hk hempty] at hprogram
  obtain rfl : (readLine isolating (u :: us)).whole = is := (List.cons.inj hprogram).2
  exact ⟨u, us, htokens, hl, his, hline, feedAll_tag hk hempty hus⟩

/-- The line of the macro and the tag: between records, the argument is settled; then comes the tag.

**Proof sketch.** The first token of the tag completes the line of the macro. The end of the tag
waits below the frames of its line. -/
theorem exists_feedAll_tagged (isolating : Bool) (number : Nat) (tag : Prose.Line)
    (hcalled : t.called? = some .tagged) (hl : t.startsLine = true)
    (hts : ∀ u ∈ ts, u.startsLine = false) :
    ∃ before between is, Records before ∧ Records between ∧ IsText tag.meanings is ∧
      (feedAll isolating [] (t :: ts ++ Token.ofLine number tag.source)).whole =
        .beginLine :: before ++ (Purpose.tag.settle t (Token.firstArgument? ts)).1 ++
          (between ++ (Purpose.tag.settle t (Token.firstArgument? ts)).2) ++
          (is ++ [.closeScope]) ∧
      ∀ f ∈ (feedAll isolating [] (t :: ts ++ Token.ofLine number tag.source)).frames,
        f.EndsAtLine := by
  have hk := Token.kind_of_called? hcalled
  rw [Token.called?_of_kind hk] at hcalled
  obtain ⟨s, ⟨f, before, between, hframes, hbefore, hbetween, hsettle, hends⟩, hargument⟩ :=
    exists_feedAll_argument isolating .tag t hts
  have hends : f.EndsAtLine := hends fun h => Purpose.noConfusion h
  obtain ⟨u, us, htokens, hlu, his, hline, htag⟩ := tag.exists_readLine isolating number
  have hcall : feed isolating [] t = ⟨[.beginLine, .consume t],
      [.argument .tag t, .tag, .afterwards [.closeScope]]⟩ := by
    simp [feed, Step.top, Step.call, hk, hl, hcalled, Step.preceded]
  have hmacro : feedAll isolating [] (t :: ts) = ⟨.beginLine :: .consume t :: s.out,
      [f, .tag, .afterwards [.closeScope]]⟩ := by
    simp only [feedAll_cons, hcall, hargument, hframes]
    rfl
  -- the first token of the tag's line starts it, so the frame of the argument passes it on to the
  -- tag
  have hboth : feedAll isolating [] (t :: ts ++ Token.ofLine number tag.source) =
      ⟨.beginLine :: .consume t :: (s.out ++ f.atEnd) ++ (readLine isolating (u :: us)).out,
        (readLine isolating (u :: us)).frames ++ [.afterwards [.closeScope]]⟩ := by
    have htaken := htag [.afterwards [.closeScope]]
    rw [htokens, feedAll_append, hmacro]
    simp only [feedAll_cons] at htaken ⊢
    rw [feed, hends isolating u hlu]
    obtain ⟨hout, hrest⟩ := Step.mk.inj htaken
    simp only [hrest, List.append_assoc, hout, List.cons_append]
  refine ⟨.consume t :: before, between, _, hbefore.consume t, hbetween, his, ?_, ?_⟩
  · rw [hboth, Step.whole, hsettle, finish_append]
    simp [Step.whole, finish, Frame.atEnd]
  · rw [hboth]
    refine List.forall_mem_append.mpr ⟨hline, fun g hg => ?_⟩
    obtain rfl := List.mem_singleton.mp hg
    exact fun _ _ _ => rfl

/-- **The program of a tagged paragraph**, and of other lines after it: what the macro amounts to,
the tag, the end of the tag, and the lines of the paragraph. The end of the tag closes its style,
before the first line of the paragraph. -/
theorem exists_program_tagged (isolating : Bool) (number : Nat) (tag : Prose.Line)
    (body : List Prose.Line) (below : List Text) (hcalled : t.called? = some .tagged)
    (hl : t.startsLine = true) (hts : ∀ u ∈ ts, u.startsLine = false) :
    ∃ before between is js, Records before ∧ Records between ∧ IsText tag.meanings is ∧
      IsLines (body.flatMap Prose.Line.meanings) js ∧
      program isolating (t :: ts ++
          Token.ofLines number (tag.source :: (body.map Prose.Line.source ++ below))) =
        .beginLine :: before ++ (Purpose.tag.settle t (Token.firstArgument? ts)).1 ++
          (between ++ (Purpose.tag.settle t (Token.firstArgument? ts)).2) ++
          (is ++ [.closeScope]) ++ (js ++
          program isolating (Token.ofLines (number + 1 + body.length) below)) := by
  obtain ⟨before, between, is, hbefore, hbetween, his, hwhole, hends⟩ :=
    exists_feedAll_tagged isolating number tag hcalled hl hts
  obtain ⟨js, hjs, hbody⟩ := Prose.exists_program_ofLines isolating body (number + 1) below
  refine ⟨before, between, is, js, hbefore, hbetween, his, hjs, ?_⟩
  rw [Token.ofLines, ← List.append_assoc,
    program_append hends (Token.startsLine_head?_ofLines (number + 1) _), hbody, ← hwhole]
  rw [program, programFrom_eq]
  rfl

end Manpage

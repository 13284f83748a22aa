import Manpage.Proofs.Machine.Tagged
import Manpage.Proofs.Number.Whole
import Manpage.Proofs.Program.Tagged
import Manpage.Proofs.Render.Reached

/-!
# Tagged paragraphs on a page

A tagged paragraph at the top of a source is set as its tag and its body: the tag on lines with the
padding of the margin, and the body, from the next line on, on lines with that of its indent. The
indent is the number that the macro is called with, or that of paragraphs.

## Main definitions

* `Manpage.IsTagIndent` — the indent of a tagged paragraph, from the argument of its macro.

## Main results

* `Manpage.readAmount_of_isTagIndent` — how the argument is read.
* `Manpage.interpretSource_tagged` — a tagged paragraph at the top of a source.
-/

namespace Manpage

variable {source call : Text} {above below : List Text} {requested : Option Section} {width : Int}
  {m : Machine} {t : Token} {ts : List Token} {tag : Prose.Line} {body : List Prose.Line}
  {argument : Option Text} {fallback amount : Int}

/-! ## The indent -/

/-- The digits of a numeral as a whole number, with its sign. -/
def Numeral.whole (x : Numeral) : Int :=
  if x.negative then -x.digits else x.digits

/-- The indent of a tagged paragraph, from the argument of its macro: a whole number, a negative one
counted as nothing; where there is no argument, or one that is no number, that of paragraphs. -/
inductive IsTagIndent (fallback : Int) : Option Text → Int → Prop where
  | none : IsTagIndent fallback none fallback
  | unreadable {text : Text} : Numeral.ofText? text = Option.none →
      IsTagIndent fallback (some text) fallback
  | whole {text : Text} {x : Numeral} : Numeral.ofText? text = some x → x.places = 0 →
      x.digits ≤ 2 ^ 53 → IsTagIndent fallback (some text) (max 0 x.whole)

/-- The argument is read with no more than a warning, and gives the indent. An argument that is
missing or no numeral leaves the fallback. -/
theorem readAmount_of_isTagIndent (h : IsTagIndent fallback argument amount) (t : Token) :
    Records (readAmount t argument).1 ∧
      ((readAmount t argument).2.map Int.ofNat).getD fallback = amount := by
  cases h with
  | none => exact ⟨List.forall_mem_nil _, rfl⟩
  | unreadable htext => simp [readAmount, readNumber, htext, Records, Instr.isRecord]
  | @whole text x htext hplaces hdigits =>
    obtain ⟨negative, digits, places⟩ := x
    obtain rfl : places = 0 := hplaces
    have hread : Numeral.toInt? ⟨negative, digits, 0⟩ =
        some (Numeral.whole ⟨negative, digits, 0⟩) :=
      Numeral.toInt?_whole_of_le negative hdigits
    simp only [readAmount, readNumber, htext, hread]
    exact ⟨List.forall_mem_nil _, by simp [max_comm]⟩

/-! ## Tagged paragraphs -/

/-- **A tagged paragraph** at the top of a source, in the plain style, where lines are filled and
shown. On the lines that there are, once the current one is ended, follow the words of its tag, set
on lines with the padding of the margin, and those of its body, set on lines with that of its
indent. The indent is stored, and all else is as before.

**Proof sketch.** The program has the tag between the instruction that begins it and the one that
ends it, and the body behind it. Lines above make no difference to what these do. The tag begins on
a fresh line, so that its words are set as on an empty page; its end starts another, also where a
full line has ended already. -/
theorem interpretSource_tagged (hreached : m.Reached requested width above)
    (hsource : source.splitLines =
      above ++ call :: tag.source :: (body.map Prose.Line.source ++ below))
    (hcall : Token.ofLine (1 + above.length) call = t :: ts) (hcalled : t.called? = some .tagged)
    (hvisible : m.isVisible = true) (hfill : m.page.noFill = false)
    (hstyle : m.page.style = .plain)
    (hindent : IsTagIndent m.page.paragraphIndent (Token.firstArgument? ts) amount) :
    ∃ m' : Machine,
      interpretSource source requested width = m'.run (program requested.isSome
        (Token.ofLines (1 + above.length + 1 + 1 + body.length) below)) ∧
      (∃ lines, m'.page.written = m.page.written ++ lines ∧
        lines.map Piece.showLine =
          Text.fill (min m.page.margin m.page.width).toNat m.page.width
              (tag.meanings.filter fun w => w ≠ []) ++
            Text.fill (min (m.page.margin + amount) m.page.width).toNat m.page.width
              ((body.flatMap Prose.Line.meanings).filter fun w => w ≠ [])) ∧
      m'.page.settings =
        { m.page.settings with indent := amount, storedIndent := some amount } := by
  obtain ⟨hl, hts⟩ := Token.startsLine_of_ofLine_eq_cons hcall
  obtain ⟨before, between, is, js, hbefore, hbetween, his, hjs, hprogram⟩ :=
    exists_program_tagged requested.isSome (1 + above.length + 1) tag body below hcalled hl hts
  obtain ⟨hout, hamount⟩ := readAmount_of_isTagIndent hindent t
  set a : Option Int := (readAmount t (Token.firstArgument? ts)).2.map Int.ofNat with ha
  let records := before ++ (readAmount t (Token.firstArgument? ts)).1 ++ between
  have hrecords : Records records := (hbefore.append hout).append hbetween
  have htokens : Token.ofLines (1 + above.length)
      (call :: tag.source :: (body.map Prose.Line.source ++ below)) =
        t :: ts ++ Token.ofLines (1 + above.length + 1)
          (tag.source :: (body.map Prose.Line.source ++ below)) := by
    rw [Token.ofLines, hcall]
  have hrest := hreached.interpretSource_eq hsource htokens (Token.kind_of_called? hcalled) hl
  have hinstrs : program requested.isSome (Token.ofLines (1 + above.length)
      (call :: tag.source :: (body.map Prose.Line.source ++ below))) =
        (.beginLine :: records ++ (.openTag a :: is ++ .closeScope :: js)) ++
          program requested.isSome
            (Token.ofLines (1 + above.length + 1 + 1 + body.length) below) := by
    rw [htokens, hprogram]
    simp [Purpose.settle, records, ← ha]
  have hsafe : ∀ i ∈ .beginLine :: records ++ (.openTag a :: is ++ .closeScope :: js),
      Instr.isSafe i = true := by
    have htext : ∀ i ∈ is, i.isSafe = true :=
      fun i hi => Instr.isSafe_of_isPlain (his.isPlain i hi)
    have hlines : ∀ i ∈ js, i.isSafe = true :=
      fun i hi => Instr.isSafe_of_isPlain (hjs.isPlain i hi)
    have hrecord : ∀ i ∈ records, i.isSafe = true := fun i hi =>
      Instr.isSafe_of_isPlain (Instr.isPlain_of_isRecord (hrecords i hi))
    simp only [List.cons_append, List.forall_mem_cons, List.forall_mem_append]
    exact ⟨rfl, hrecord, rfl, htext, rfl, hlines⟩
  -- the records before the tag
  obtain ⟨entries, reports, hexec⟩ := (m.apply .beginLine).exists_exec_records hrecords
  have hbegin : m.apply .beginLine = m := by
    simp only [Machine.apply, hfill]
    rfl
  rw [hbegin] at hexec
  obtain ⟨hlines, hsettings⟩ := Machine.exec_tagged
    (m := { m with entries := entries, reports := reports }) hvisible hfill hstyle a his hjs
  subst hamount
  refine ⟨_, ?_, hlines, hsettings⟩
  rw [hrest, hinstrs, Machine.run_append hsafe, Machine.exec_append, Machine.exec_cons, hbegin,
    hexec]

/-- A tag that fills its line to the end, with text pending before it, and a body whose indent
leaves no room beside it. -/
theorem interpretSource_tagged_of_full :
    let above := [".RS 3".toList, "ab".toList]
    let m := ((Machine.started none 8).run (program false (Token.ofLines 1 above))).machine
    (m.Reached none 8 above ∧ m.isVisible = true ∧ m.page.noFill = false ∧
      m.page.style = .plain ∧ m.page.written.map Piece.showLine = ["   ab".toList]) ∧
    ∃ m' : Machine,
      interpretSource ".RS 3\nab\n.TP 5\ncdcdc\ncd\n.PP\n".toList none 8 =
        m'.run (program false (Token.ofLines 6 [".PP".toList])) ∧
      (∃ lines, m'.page.written = m.page.written ++ lines ∧
        lines.map Piece.showLine = ["   cdcdc".toList, "        cd".toList]) ∧
      m'.page.settings = { m.page.settings with indent := 5, storedIndent := some 5 } := by
  intro above m
  let c : Prose.Item := .plain ⟨'c', rfl⟩ (by decide)
  let d : Prose.Item := .plain ⟨'d', rfl⟩ (by decide)
  let gap : Prose.Gap := ⟨[], rfl, List.forall_mem_nil _⟩
  let tag : Prose.Line := ⟨gap, ⟨[c, d, c, d, c], by simp⟩, [], gap, by decide⟩
  let body : Prose.Line := ⟨gap, ⟨[c, d], by simp⟩, [], gap, by decide⟩
  have hreached : m.Reached none 8 above := ⟨by decide +kernel, by decide +kernel⟩
  have hvisible : m.isVisible = true := by decide +kernel
  have hfill : m.page.noFill = false := by decide +kernel
  have hstyle : m.page.style = .plain := by decide +kernel
  have hsource : Text.splitLines ".RS 3\nab\n.TP 5\ncdcdc\ncd\n.PP\n".toList =
      above ++ ".TP 5".toList :: tag.source ::
        ([body].map Prose.Line.source ++ [".PP".toList]) := by decide +kernel
  let t : Token := ⟨.macroName, ".TP".toList, true, 3, 1⟩
  let ts : List Token := [⟨.blank, [' '], false, 3, 4⟩, ⟨.word, ['5'], false, 3, 5⟩]
  have hcall : Token.ofLine (1 + above.length) ".TP 5".toList = t :: ts := by decide +kernel
  have hindent : IsTagIndent m.page.paragraphIndent (Token.firstArgument? ts) 5 :=
    .whole (x := ⟨false, 5, 0⟩) (by decide) rfl (by decide)
  obtain ⟨m', hrun, ⟨lines, hwritten, hlines⟩, hsettings⟩ :=
    interpretSource_tagged hreached hsource hcall (by decide) hvisible hfill hstyle hindent
  refine ⟨⟨hreached, hvisible, hfill, hstyle, by decide +kernel⟩, m', hrun,
    ⟨lines, hwritten, hlines.trans ?_⟩, hsettings⟩
  decide +kernel

end Manpage

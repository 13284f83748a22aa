import Manpage.Proofs.Machine.Styled
import Manpage.Proofs.Page.Decoration
import Manpage.Proofs.Prose.Styled
import Manpage.Proofs.Render.Prose

/-!
# Rendered words with font escapes

Font escapes leave lines as they are filled, but for one place. A font escape at the end of a line
puts the space behind the word into the word, which then needs room for it. A word that would have
filled up its line goes to the next one.

## Main results

* `Manpage.Styled.render_plain` — lines without their font escapes.
* `Manpage.Styled.eraseControls_render` — lines with their font escapes.
* `Manpage.Styled.eraseControls_render_eq_iff` — when the font escapes make no difference.
-/

namespace Manpage.Styled

/-- Lines without their font escapes are rendered as their words, set on lines one after another.

**Proof sketch.** They are lines of prose, and the words of these are the words without their marks.
None of them is empty, so that none is left out. -/
theorem render_plain (ls : List Line) (width : Int) :
    render (Prose.source (ls.map Line.plain)) none width =
      .ok (Text.join ['\n'] (Text.fill 0 (max 1 width).toNat ((marks ls).map Prod.fst))) := by
  obtain ⟨is, his, hprogram⟩ := Prose.exists_program_ofLines false (ls.map Line.plain) 1 []
  have hsource : program false (Token.ofSource (Prose.source (ls.map Line.plain))) = is := by
    have hlines := Prose.splitLines_source (ls.map Line.plain) []
    rw [List.append_nil] at hlines
    rw [Token.ofSource, hlines, Text.splitLines, hprogram]
    exact List.append_nil is
  have hfills := (Machine.start_fills width).prose his
  have hne : ((marks ls).map Prod.fst).filter (fun w => w ≠ []) = (marks ls).map Prod.fst := by
    rw [List.filter_eq_self]
    intro v hv
    obtain ⟨w, hw, rfl⟩ := List.mem_map.mp hv
    exact decide_eq_true (ne_nil_of_mem_marks ls w hw)
  rw [render_eq_of_fills hsource his.isPlain hfills]
  obtain ⟨s, -, hready⟩ := hfills
  rw [← hready.rdropWhile_lines, hready.bears.rdropWhile_lines_nil, flatMap_meanings_plain,
    Text.addWords, hne]
  rfl

/-- **Lines with font escapes** are rendered as their words, set on lines one after another, where a
word with a font escape at its end, at the end of its line, needs room for one more column.

**Proof sketch.** The program of the lines changes the style within words and asks for a space in
the marked ones. The machine adds the words with their marks to the lines of its page, and erasing
the control sequences gives back the characters of these lines. -/
theorem eraseControls_render (ls : List Line) (width : Int) :
    (render (source ls) none width).map Text.eraseControls =
      .ok (Text.join ['\n'] (Text.fillMarked 0 (max 1 width).toNat (marks ls))) := by
  obtain ⟨is, his, hprogram⟩ := exists_program false ls
  have heq : interpretSource (source ls) none width = ⟨(Machine.start width).exec is, none⟩ :=
    interpretSource_eq hprogram his.isSafe
  have hfault : (interpretSource (source ls) none width).fault = none := by rw [heq]
  have htidy : Page.Tidy (source ls) _ := ((Page.steady_tidy (source ls)).interpretSource
    (Page.tidy_ofWidth (source ls) width) hfault).holds
  have hrender : render (source ls) none width =
      .ok (interpretSource (source ls) none width).machine.page.text :=
    render_eq_ok_iff.mpr ⟨hfault, rfl⟩
  obtain ⟨c, s, hsets, -, -, hbears⟩ :=
    (Machine.start_fills width).bears.prose his (ne_nil_of_mem_marks ls)
  rw [heq] at htidy hrender
  have hescape : ∀ x ∈ ((Machine.start width).exec is).page.pieces, '\x1b' ∉ x.text :=
    fun x hx => (htidy.isOf x hx).escape_not_mem (escape_not_mem_source ls)
  have htext := Page.eraseControls_text ⟨hsets.page.accounted, htidy.isPure⟩ htidy.trimmed hescape
  rw [hsets.page.map_lineText_lines htidy.isPure, hbears.rdropWhile_lines_nil] at htext
  rw [hrender]
  exact congrArg Except.ok htext

/-- **When font escapes are invisible.** Lines of plain words, with font escapes anywhere in the
words, are rendered as the lines without the escapes are, once the control sequences are erased; and
the text of these are the words, set on lines one after another. That is so but for one case: a word
with a font escape at its end, at the end of its line, fits on the line of the words before it and
leaves no room there. Such a word goes to the next line. -/
theorem eraseControls_render_eq_iff (ls : List Line) (width : Int) :
    let words := marks ls
    let styled := (render (source ls) none width).map Text.eraseControls
    let plain := render (Prose.source (ls.map Line.plain)) none width
    plain = .ok (Text.join ['\n'] (Text.fill 0 (max 1 width).toNat (words.map Prod.fst))) ∧
      styled = .ok (Text.join ['\n'] (Text.fillMarked 0 (max 1 width).toNat words)) ∧
      (styled = plain ↔ ¬ ∃ before v after l, words = before ++ (v, true) :: after ∧
        (Text.fill 0 (max 1 width).toNat (before.map Prod.fst)).getLast? = some l ∧
          l.length + 1 + v.length = (max 1 width).toNat) := by
  intro words styled plain
  have hplain : plain = .ok _ := render_plain ls width
  have hstyled : styled = .ok _ := eraseControls_render ls width
  refine ⟨hplain, hstyled, ?_⟩
  rw [hstyled, hplain, Except.ok.injEq]
  exact Text.join_fillMarked_eq_iff 0 (max 1 width).toNat words

/-- Two words of three letters on lines of seven columns, with a font escape at the end: the second
word goes to the next line. -/
theorem not_forall_eraseControls_render_eq :
    ¬ ∀ (ls : List Line) (width : Int),
      (render (source ls) none width).map Text.eraseControls =
        render (Prose.source (ls.map Line.plain)) none width := by
  intro h
  let a : Item := .char ⟨'a', by decide⟩
  let b : Item := .char ⟨'b', by decide⟩
  let first : Word := ⟨[a, a, a], by decide⟩
  let second : Word := ⟨[b, b, b, .font .roman false], by decide⟩
  let gap : Prose.Gap := ⟨[], rfl, by simp⟩
  let space : Prose.Separator := ⟨⟨[' '], rfl, List.forall_mem_singleton.mpr rfl⟩, by simp⟩
  let l : Line := ⟨gap, first, [(space, second)], gap, by decide⟩
  have hsource : source [l] = "aaa bbb\\fR\n".toList := by decide
  have hplain : Prose.source ([l].map Line.plain) = "aaa bbb\n".toList := by decide
  have hstyledText : render "aaa bbb\\fR\n".toList none 7 = .ok "aaa\nbbb".toList := by
    decide +kernel
  have hplainText : render "aaa bbb\n".toList none 7 = .ok "aaa bbb".toList := by
    decide +kernel
  have herase : Text.eraseControls "aaa\nbbb".toList = "aaa\nbbb".toList := by
    rw [← List.append_nil "aaa\nbbb".toList, Text.eraseControls_append (by decide),
      Text.eraseControls_nil]
  have hclaim := h [l] 7
  rw [hsource, hplain, hstyledText, hplainText] at hclaim
  have htext : Text.eraseControls "aaa\nbbb".toList = "aaa bbb".toList := Except.ok.inj hclaim
  rw [herase] at htext
  exact absurd htext (by decide)

end Manpage.Styled

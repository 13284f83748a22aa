import Manpage.Proofs.Machine.Hidden
import Manpage.Proofs.Program.Reading
import Manpage.Render

/-!
# Hidden sections

A reader who asks for one section learns nothing of what the others say. Two sources that differ in
the words of other sections alone end alike and leave the same page, and a source without the
section leaves none.

## Main results

* `Manpage.interpretSource_agreeOutside` — words outside of the section leak nothing.
-/

namespace Manpage

/-- An interpretation for a section carries out the program of the tokens. -/
theorem interpretSource_eq_run (source : Text) (s : Section) (width : Int) :
    interpretSource source (some s) width =
      Machine.run { Machine.fresh (Page.ofWidth width) (some s) with consumed := true }
        (program true (Token.ofSource source)) := rfl

/-- No argument is missing in the program of a source. -/
theorem missingArgument_not_mem_program (source : Text) (found : Option Token) :
    .fault (.missingArgument found) ∉ program true (Token.ofSource source) := by
  intro hmem
  have hsound := (program_carries true source).sound _ hmem
  exact Fault.noConfusion hsound

/-- **Hidden sections leak nothing.** Two sources are interpreted for one section and one width.
Their tokens agree in kind, in line, in whether they begin it, and in value, up to the values of
words that are shown while the section is not the current one. Then both interpretations end alike,
with no fault or with the same up to its column, and leave the same page: the same text, the same
length and blankness of the current line, the same style, indents and margins. If no title names the
section, the text is empty.

**Proof sketch.** No argument is missing in the program of a source, so the same is seen of both
programs. The machine comes to the same end with both, records apart. -/
theorem interpretSource_agreeOutside (source source' : Text) (s : Section) (width : Int)
    (h : AgreeOutside s [] none (Token.ofSource source) (Token.ofSource source')) :
    let o := interpretSource source (some s) width
    let o' := interpretSource source' (some s) width
    o.fault.map Fault.flush = o'.fault.map Fault.flush ∧ o.machine.page = o'.machine.page ∧
      o.machine.current = o'.machine.current ∧
      (.enterSection s ∉ program true (Token.ofSource source) → o.machine.page.text = []) := by
  intro o o'
  have hseen := h.seen_eq (missingArgument_not_mem_program source) rfl
  have hend : o.unrecorded = o'.unrecorded := Machine.run_congr_of_seen rfl hseen
  refine ⟨congrArg Outcome.fault hend, congrArg (·.machine.page) hend,
    congrArg (·.machine.current) hend, fun hnever => ?_⟩
  have hempty : (Page.ofWidth width).IsUntouched := ⟨rfl, rfl, by simp [Page.ofWidth]⟩
  exact (Machine.isUntouched_run hempty rfl (by simp [Machine.fresh]) hnever).text_eq_nil

/-- Words of other lengths before the first heading, and in a font below it: for the section with
one word, and for one that no title names. -/
theorem interpretSource_agreeOutside_of_hidden_words :
    let source := "a\n.SH NAME\n.B bb c\n.SH OPTIONS\nx\n".toList
    let source' := "dddd\n.SH NAME\n.B e fff\n.SH OPTIONS\nx\n".toList
    let shown := interpretSource source (some .options) 2
    let shown' := interpretSource source' (some .options) 2
    let absent := interpretSource source (some .synopsis) 2
    (AgreeOutside .options [] none (Token.ofSource source) (Token.ofSource source') ∧
      shown.machine.page.text = ['x']) ∧
      shown.machine.page = shown'.machine.page ∧ absent.machine.page.text = [] := by
  have htokens : Token.ofSource "a\n.SH NAME\n.B bb c\n.SH OPTIONS\nx\n".toList =
      [⟨.word, "a".toList, true, 1, 1⟩, ⟨.macroName, ".SH".toList, true, 2, 1⟩,
        ⟨.blank, " ".toList, false, 2, 4⟩, ⟨.word, "NAME".toList, false, 2, 5⟩,
        ⟨.macroName, ".B".toList, true, 3, 1⟩, ⟨.blank, " ".toList, false, 3, 3⟩,
        ⟨.word, "bb".toList, false, 3, 4⟩, ⟨.blank, " ".toList, false, 3, 6⟩,
        ⟨.word, "c".toList, false, 3, 7⟩, ⟨.macroName, ".SH".toList, true, 4, 1⟩,
        ⟨.blank, " ".toList, false, 4, 4⟩, ⟨.word, "OPTIONS".toList, false, 4, 5⟩,
        ⟨.word, "x".toList, true, 5, 1⟩] := by cbv
  have htokens' : Token.ofSource "dddd\n.SH NAME\n.B e fff\n.SH OPTIONS\nx\n".toList =
      [⟨.word, "dddd".toList, true, 1, 1⟩, ⟨.macroName, ".SH".toList, true, 2, 1⟩,
        ⟨.blank, " ".toList, false, 2, 4⟩, ⟨.word, "NAME".toList, false, 2, 5⟩,
        ⟨.macroName, ".B".toList, true, 3, 1⟩, ⟨.blank, " ".toList, false, 3, 3⟩,
        ⟨.word, "e".toList, false, 3, 4⟩, ⟨.blank, " ".toList, false, 3, 5⟩,
        ⟨.word, "fff".toList, false, 3, 6⟩, ⟨.macroName, ".SH".toList, true, 4, 1⟩,
        ⟨.blank, " ".toList, false, 4, 4⟩, ⟨.word, "OPTIONS".toList, false, 4, 5⟩,
        ⟨.word, "x".toList, true, 5, 1⟩] := by cbv
  have hagree : ∀ s ∈ [Section.options, .synopsis], AgreeOutside s [] none
      (Token.ofSource "a\n.SH NAME\n.B bb c\n.SH OPTIONS\nx\n".toList)
      (Token.ofSource "dddd\n.SH NAME\n.B e fff\n.SH OPTIONS\nx\n".toList) := by
    rw [htokens, htokens']
    decide
  have htext : (interpretSource "a\n.SH NAME\n.B bb c\n.SH OPTIONS\nx\n".toList (some .options)
      2).machine.page.text = ['x'] := by
    rw [interpretSource_eq_run, htokens]
    decide
  have hnever : .enterSection .synopsis ∉
      program true (Token.ofSource "a\n.SH NAME\n.B bb c\n.SH OPTIONS\nx\n".toList) := by
    rw [htokens]
    decide
  have hshown := hagree .options (by decide)
  exact ⟨⟨hshown, htext⟩, (interpretSource_agreeOutside _ _ .options 2 hshown).2.1,
    (interpretSource_agreeOutside _ _ .synopsis 2 (hagree .synopsis (by decide))).2.2.2 hnever⟩

end Manpage

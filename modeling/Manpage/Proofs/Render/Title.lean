import Manpage.Proofs.Machine.Title
import Manpage.Proofs.Render.Reached

/-!
# Headings of sections

What a heading at the top of a source amounts to, for a title of plain words in each of its forms.
In a whole document the words of the title are set on lines, whatever the form. Where a section is
asked for, the heading makes current that of the whole title, but for one form: of a title given as
several arguments, the first alone is read, and the section is another one where this names one.

## Main results

* `Manpage.Title.join_fill` — the lines of a title, joined with spaces.
* `Manpage.interpretSource_heading` — a heading at the top of a source.
* `Manpage.not_forall_current_heading` — not every heading makes the section of its title current.
-/

namespace Manpage

variable {source : Text} {above below : List Text} {requested : Option Section} {width : Int}
  {m : Machine}

namespace Title

/-- A word added to lines, behind a space if they are joined with spaces. Whether the word is put on
the latest line or on one of its own, it is joined with a space. -/
theorem join_addWord (width : Nat) {lines : List Text} (hne : lines ≠ []) (v : Text) :
    Text.join [' '] (Text.addWord 0 width lines v).reverse =
      Text.join [' '] lines.reverse ++ ' ' :: v := by
  obtain ⟨l, ls, rfl⟩ := List.exists_cons_of_ne_nil hne
  have hspaces : Text.spaces 0 = [] := rfl
  rw [Text.addWord, hspaces, List.nil_append]
  split
  · simp only [List.reverse_cons, Text.join_append_singleton, List.append_assoc]
  · rw [List.reverse_cons, Text.join_append_singleton, List.reverse_cons,
      Text.join_append_singleton, List.flatMap_append, List.flatMap_singleton]
    simp

/-- **The lines of a title**, joined with spaces, are the title.

**Proof sketch.** By induction on the words behind the first. A word is added to the latest line
behind a space, or it begins a line, which is joined by a space. -/
theorem join_fill (t : Title) (width : Nat) :
    Text.join [' '] (Text.fill 0 width t.words) = t.text := by
  have hrest : ∀ (rest lines : List Text), lines ≠ [] →
      Text.join [' '] (rest.foldl (Text.addWord 0 width) lines).reverse =
        Text.join [' '] lines.reverse ++ behind rest := by
    intro rest
    induction rest with
    | nil => simp [behind]
    | cons v rest ih =>
      intro lines hne
      rw [List.foldl_cons, ih _ (Text.addWord_ne_nil 0 width lines v), join_addWord width hne,
        List.append_assoc]
      rfl
  have hfirst := hrest t.rest [t.first] (List.cons_ne_nil _ _)
  have hsingle : Text.join [' '] [t.first] = t.first := by simp [Text.join]
  rw [List.reverse_singleton, hsingle] at hfirst
  exact hfirst

/-- No instruction of a heading can fail. The scope that is closed is that of the title's style, or
of a word that has been opened. -/
theorem Form.isSafe_heading (form : Form) (title : Title) (isolating : Bool) :
    ∀ i ∈ form.heading title isolating, i.isSafe = true := by
  have hword : ∀ w, ∀ i ∈ form.word w, i.isSafe = true := by
    intro w
    cases form <;> simp [word, Instr.isSafe]
  have hseparator : form.separator.isSafe = true := by
    cases form <;> rfl
  have hlast : ∀ i ∈ form.last, i.isSafe = true := by
    cases form <;> simp [last, Instr.isSafe]
  cases isolating with
  | true => simp [heading, Instr.isSafe]
  | false =>
    have hrest : ∀ i ∈ title.rest.flatMap fun v => form.separator :: form.word v,
        i.isSafe = true := by
      intro i hi
      obtain ⟨v, -, hv⟩ := List.mem_flatMap.mp hi
      rcases List.mem_cons.mp hv with rfl | hv
      · exact hseparator
      · exact hword v i hv
    simp only [heading, shown, List.forall_mem_append]
    exact ⟨by simp [Instr.isSafe], ⟨⟨hword title.first, hrest⟩, hlast⟩, by simp [Instr.isSafe]⟩

end Title

/-- **A heading** at the top of a source, in any form. Where a section is asked for, the heading
makes one current, which is that of the whole title unless the title is given as several arguments
of which the first names a section. In a whole document an empty line follows on the lines that
there are, where lines are filled and the current one is not blank, and then the words of the title,
set on lines without padding; the heading leaves the margin of a section and no indent. Records
apart, nothing else changes.

**Proof sketch.** The program of the heading is the one that its form has for the title, but for
records. All forms show the title in the same way. -/
theorem interpretSource_heading (form : Title.Form) (title : Title)
    (hreached : m.Reached requested width above)
    (hsource : source.splitLines = above ++ (form.lines title ++ below)) :
    ∃ m' : Machine,
      interpretSource source requested width = m'.run (program requested.isSome
        (Token.ofLines (1 + above.length + (form.lines title).length) below)) ∧
      (requested.isSome = true →
        m'.unrecorded = Machine.unrecorded { m.apply .beginLine with
          current := some (Section.ofTitle (form.read title)) } ∧
        (m'.current = some (Section.ofTitle title.text) ↔
          form ≠ .bare ∨ title.rest = [] ∨ Section.ofTitle title.first = .unknown)) ∧
      (requested = none →
        ∃ lines printed, m'.page.written = m.page.written ++ lines ∧
          lines.map Piece.lineText =
            (if m.page.noFill || m.page.isLineBlank then [] else [[]]) ++ printed ∧
          printed = Text.fill 0 m.page.width title.words ∧ Text.join [' '] printed = title.text ∧
          m'.page.settings =
            { m.page.settings with margins := [Page.defaultMargin], indent := 0 } ∧
          m'.unrecorded = Machine.unrecorded { m with page := m'.page }) := by
  obtain ⟨t, ts, htokens, hcalled, hl, -⟩ :=
    form.exists_ofLines_eq title (1 + above.length) below
  have hrest := hreached.interpretSource_eq hsource htokens (Token.kind_of_called? hcalled) hl
  obtain ⟨is, hprogram, his⟩ :=
    form.exists_program_heading requested.isSome title (1 + above.length) below
  have hsafe : ∀ i ∈ is, i.isSafe = true :=
    Instr.isSafe_of_withoutRecords (his ▸ form.isSafe_heading title requested.isSome)
  -- records apart, the program of the heading is the list of its instructions
  have hexec : (m.exec is).unrecorded =
      (m.exec (form.heading title requested.isSome)).unrecorded := by
    rw [← his]
    exact Machine.unrecorded_exec_withoutRecords rfl is
  refine ⟨m.exec is, ?_, ?_, ?_⟩
  · rw [hrest, hprogram, Machine.run_append hsafe]
  · intro hsome
    rw [hsome] at hexec
    have hcurrent : (m.exec is).current = some (Section.ofTitle (form.read title)) :=
      congrArg Machine.current hexec
    rw [hcurrent, Option.some.injEq, Title.ofTitle_read_eq_iff]
    exact ⟨hexec, Iff.rfl⟩
  · rintro rfl
    -- without a request everything is visible
    have hvisible : m.isVisible = true := by
      rw [Machine.isVisible, hreached.requested_eq]
      rfl
    obtain ⟨q, hheading, ⟨lines, hwritten, hlines⟩, hsettings⟩ :=
      Machine.exec_heading form title hvisible
    have hsame : (m.exec is).unrecorded = Machine.unrecorded { m with page := q } := by
      rw [← hheading]
      exact hexec
    have hpage : (m.exec is).page = q := congrArg Machine.page hsame
    rw [hpage]
    exact ⟨lines, _, hwritten, hlines, rfl, title.join_fill m.page.width, hsettings, hsame⟩

/-- A title of two words, the first of which names a section. -/
def nameFoo : Title :=
  ⟨"NAME".toList, ["FOO".toList], by decide, by decide, by simp [Lexeme.isPlain],
    by decide⟩

/-- The two words as arguments, where the section of the first is asked for; and on a line of their
own in a whole document whose lines have no room for both. -/
theorem interpretSource_heading_of_two_words :
    (∃ m' : Machine, interpretSource ".SH NAME FOO\nab\n".toList (some .name) 40 =
        m'.run (program true (Token.ofLines 2 ["ab".toList])) ∧
      m'.current = some .name ∧ Section.ofTitle nameFoo.text = .unknown) ∧
    ∃ m' : Machine, interpretSource "ab\n.SH\nNAME FOO\nab\n".toList none 6 =
        m'.run (program false (Token.ofLines 4 ["ab".toList])) ∧
      m'.page.written.map Piece.lineText =
        ["ab".toList, [], "NAME".toList, "FOO".toList] ∧
      m'.page.margins = [7] ∧ m'.page.indent = 0 := by
  refine ⟨?_, ?_⟩
  · have hsource : Text.splitLines ".SH NAME FOO\nab\n".toList =
        [] ++ (Title.Form.bare.lines nameFoo ++ ["ab".toList]) := by decide
    obtain ⟨m', hrun, hsection, -⟩ := interpretSource_heading .bare nameFoo
      (Machine.reached_nil (some .name) 40) hsource
    obtain ⟨hsame, -⟩ := hsection rfl
    have hcurrent : m'.current = some (Section.ofTitle "NAME".toList) :=
      congrArg Machine.current hsame
    exact ⟨m', hrun, hcurrent, by decide⟩
  · let m := ((Machine.started none 6).run (program false (Token.ofLines 1 ["ab".toList]))).machine
    have hreached : m.Reached none 6 ["ab".toList] := ⟨by decide +kernel, by decide +kernel⟩
    have hsource : Text.splitLines "ab\n.SH\nNAME FOO\nab\n".toList =
        ["ab".toList] ++ (Title.Form.nextLine.lines nameFoo ++ ["ab".toList]) := by decide
    obtain ⟨m', hrun, -, hwhole⟩ := interpretSource_heading .nextLine nameFoo hreached hsource
    obtain ⟨lines, printed, hwritten, hlines, rfl, -, hsettings, -⟩ := hwhole rfl
    refine ⟨m', hrun, ?_, congrArg Page.Settings.margins hsettings,
      congrArg Page.Settings.indent hsettings⟩
    rw [hwritten, List.map_append, hlines]
    decide +kernel

/-- **Not every heading makes the section of its title current.** Of a title that is given as
several arguments, the first may name a section, which is then not that of the title. -/
theorem not_forall_current_heading :
    ¬ ∀ (form : Title.Form) (title : Title) (source : Text) (requested : Section),
      source.splitLines = form.lines title →
        (interpretSource source (some requested) 40).machine.current =
          some (Section.ofTitle title.text) := by
  intro h
  have hname := h .bare nameFoo ".SH NAME FOO".toList .name (by decide)
  revert hname
  decide +kernel

end Manpage

import Manpage.Proofs.Machine.Core
import Manpage.Proofs.Machine.Faults
import Manpage.Proofs.Machine.Shown
import Manpage.Proofs.Program.InFont
import Manpage.Proofs.Token.Call

/-!
# What font macros leave behind

A font macro sets the flag of its font, shows its arguments or the next line, and clears that one
flag. The words that it shows are complete by then, and none of them fails. A font escape among them
may have set another flag: that flag stays set, unless an escape back to the regular font follows.

## Main definitions

* `Manpage.Instr.restyle` — a style after an instruction of text.
* `Manpage.SelectsOther` — a font other than a given one is selected and not taken back.

## Main results

* `Manpage.Machine.scopes_style_exec` — instructions of text, carried out.
* `Manpage.foldl_restyle_eq_plain_iff` — the flags that are left.
* `Manpage.style_inFont` — the style after a font macro.
-/

namespace Manpage

variable {i : Instr} {is content : List Instr} {n k : Nat} {outer : List Scope} {font : Font}
  {t : Token} {before after : List Token} {source : Text}

/-! ## Styles along instructions of text -/

/-- A style after an instruction of text. -/
def Instr.restyle (s : Style) : Instr → Style
  | .setStyle font value => s.set font value
  | .plainStyle => .plain
  | _ => s

namespace Machine

variable {m : Machine}

/-- An instruction of text: it opens a word, closes the innermost one or leaves all scopes as they
are, and it changes the style only where it selects a font.

**Proof sketch.** By cases on the instruction. Words open and close their own scopes and leave the
style alone; output and records leave the core alone. -/
theorem scopes_style_apply (hi : i.isOfLine = true) (hn : i.wordsAfter n = some k)
    (hscopes : m.scopes = List.replicate n .word ++ outer) :
    (m.apply i).scopes = List.replicate k .word ++ outer ∧
      (m.apply i).page.style = i.restyle m.page.style := by
  cases i with
  | openWord =>
    obtain rfl : n + 1 = k := Option.some.inj hn
    refine ⟨congrArg (Scope.word :: ·) hscopes, ?_⟩
    exact congrArg Page.Settings.style (Page.settings_openWord m.page)
  | closeScope =>
    simp only [Instr.wordsAfter, Option.ite_none_left_eq_some, Option.some.injEq] at hn
    obtain ⟨hpos, rfl⟩ := hn
    obtain ⟨l, rfl⟩ := Nat.exists_eq_succ_of_ne_zero hpos
    have hclose : m.apply .closeScope =
        { m with scopes := List.replicate l .word ++ outer, page := m.page.closeWord } :=
      apply_closeScope_of_word hscopes
    rw [hclose]
    exact ⟨rfl, congrArg Page.Settings.style (Page.settings_closeWord m.page)⟩
  | consume | warn | setStyle | plainStyle | fault =>
    obtain rfl : n = k := Option.some.inj hn
    exact ⟨hscopes, rfl⟩
  | emit | space | blank | beginLine | endLine | emptyLine =>
    obtain rfl : n = k := Option.some.inj hn
    exact ⟨(scopes_eq (core_apply_of_isOutput m rfl)).trans hscopes,
      style_eq (core_apply_of_isOutput m rfl)⟩
  | _ => exact Bool.noConfusion hi

/-- **Instructions of text, carried out.** Their words are the only scopes that they open and close,
and the style afterwards depends on the style before and on the fonts that they select. -/
theorem scopes_style_exec (h : LineText n is k)
    (hscopes : m.scopes = List.replicate n .word ++ outer) :
    (m.exec is).scopes = List.replicate k .word ++ outer ∧
      (m.exec is).page.style = is.foldl Instr.restyle m.page.style := by
  induction is generalizing m n with
  | nil =>
    obtain rfl : n = k := Option.some.inj h.words_eq
    exact ⟨hscopes, rfl⟩
  | cons i is ih =>
    obtain ⟨hi, heach⟩ := List.forall_mem_cons.mp h.each
    obtain ⟨l, hl, hwords⟩ := Option.bind_eq_some_iff.mp h.words_eq
    obtain ⟨hnext, hstyle⟩ := scopes_style_apply hi hl hscopes
    obtain ⟨hlast, hrest⟩ := ih ⟨heach, hwords⟩ hnext
    exact ⟨hlast, by rw [exec_cons, hrest, hstyle, List.foldl_cons]⟩

end Machine

/-! ## The flags that are left -/

/-- Instructions select a font other than the given one, and no escape back to the regular font
follows. -/
def SelectsOther (font : Font) (is : List Instr) : Prop :=
  ∃ first other last, is = first ++ .setStyle other true :: last ∧ other ≠ font ∧
    .plainStyle ∉ last

/-- No instructions select no font. -/
theorem not_selectsOther_nil (font : Font) : ¬ SelectsOther font [] := by
  rintro ⟨first, other, last, heq, -⟩
  exact absurd heq (by simp)

/-- One more instruction: it selects another font, or one was selected before and stays. By whether
the selection is the last instruction, or stands before it. -/
theorem selectsOther_concat :
    SelectsOther font (is ++ [i]) ↔
      (∃ other, i = .setStyle other true ∧ other ≠ font) ∨
        i ≠ .plainStyle ∧ SelectsOther font is := by
  constructor
  · rintro ⟨first, other, last, heq, hother, hlast⟩
    rcases List.eq_nil_or_concat last with rfl | ⟨more, j, rfl⟩
    · obtain ⟨-, hi⟩ := List.append_inj' heq rfl
      exact Or.inl ⟨other, List.singleton_inj.mp hi, hother⟩
    · rw [List.concat_eq_append] at heq hlast
      rw [← List.cons_append, ← List.append_assoc] at heq
      obtain ⟨rfl, hi⟩ := List.append_inj' heq rfl
      obtain rfl := List.singleton_inj.mp hi
      rw [List.mem_append, List.mem_singleton, not_or] at hlast
      exact Or.inr ⟨Ne.symm hlast.2, first, other, more, rfl, hother, hlast.1⟩
  · rintro (⟨other, rfl, hother⟩ | ⟨hi, first, other, last, rfl, hother, hlast⟩)
    · exact ⟨is, other, [], rfl, hother, List.not_mem_nil⟩
    · refine ⟨first, other, last ++ [i], by simp, hother, ?_⟩
      rw [List.mem_append, List.mem_singleton, not_or]
      exact ⟨hlast, Ne.symm hi⟩

/-- **The flags that are left** once the flag of a font is cleared, after text that began with that
flag alone.

**Proof sketch.** By induction on the text, one more instruction at its end. An escape to the
regular font clears all flags, one to the font itself sets a flag that is cleared in the end, and
one to another font sets a flag that stays. -/
theorem foldl_restyle_eq_plain_iff (hfont : font = .bold ∨ font = .italic)
    (his : ∀ i ∈ is, i.isOfLine = true) :
    (is.foldl Instr.restyle (Style.plain.set font true)).set font false = .plain ↔
      ¬ SelectsOther font is := by
  induction is using List.reverseRecOn with
  | nil =>
    refine iff_of_true ?_ (not_selectsOther_nil font)
    rcases hfont with rfl | rfl <;> rfl
  | append_singleton is i ih =>
    obtain ⟨his, hi⟩ := List.forall_mem_append.mp his
    rw [List.forall_mem_singleton] at hi
    specialize ih his
    rw [List.foldl_concat, selectsOther_concat, not_or, not_and]
    generalize is.foldl Instr.restyle (Style.plain.set font true) = s at ih ⊢
    cases i with
    | plainStyle =>
      refine iff_of_true ?_ ⟨by simp, fun hplain => absurd rfl hplain⟩
      rcases hfont with rfl | rfl <;> rfl
    | setStyle other value =>
      simp only [Instr.isOfLine, Bool.and_eq_true, Bool.or_eq_true, beq_iff_eq] at hi
      obtain ⟨rfl, hother⟩ := hi
      by_cases hsame : other = font
      · subst hsame
        -- the font of the macro is taken off at the end, whatever it is set to
        have hset : ((s.set other true).set other false) = s.set other false := by
          rcases hfont with rfl | rfl <;> rfl
        simpa [Instr.restyle, hset] using ih
      · -- the other font stays, since only that of the macro is taken off
        refine iff_of_false ?_ fun h => h.1 ⟨other, rfl, hsame⟩
        rcases hfont with rfl | rfl <;> rcases hother with rfl | rfl
        · exact absurd rfl hsame
        · simp [Instr.restyle, Style.set, Style.plain]
        · simp [Instr.restyle, Style.set, Style.plain]
        · exact absurd rfl hsame
    | _ => simpa [Instr.restyle] using ih

/-! ## Font macros -/

/-- The fonts of font macros. -/
theorem Token.font_of_called? (h : t.called? = some (.inFont font)) :
    font = .bold ∨ font = .italic := by
  have hk := kind_of_called? h
  rw [called?_of_kind hk] at h
  have hmem := Macro.mem_names h
  simp only [Macro.names, List.mem_cons, Prod.mk.injEq, reduceCtorEq, and_false, false_or,
    Macro.inFont.injEq, List.not_mem_nil, or_false] at hmem
  exact hmem.imp And.right And.right

/-- The style after a font macro: of the fonts that its text selects, only its own is taken back.
The text opens as many words as it closes, so no style comes back from a scope. -/
theorem Machine.style_exec_inFont {m : Machine} (hplain : m.page.style = .plain)
    (hcontent : LineText 0 content 0) : (m.exec (inFont t font content)).page.style =
      (content.foldl Instr.restyle (Style.plain.set font true)).set font false := by
  let opened := (m.apply (.consume t)).apply (.setStyle font true)
  have hopened : opened.page.style = Style.plain.set font true := congrArg (·.set font true) hplain
  have hscopes : opened.scopes = List.replicate 0 .word ++ opened.scopes := rfl
  obtain ⟨-, hstyle⟩ := scopes_style_exec hcontent hscopes
  have hexec : m.exec (inFont t font content) =
      ((opened.exec content).apply (.setStyle font false)).apply .space := by
    rw [inFont, List.cons_append, List.cons_append, exec_cons, exec_cons, exec_append]
    rfl
  rw [hexec, style_eq (core_apply_of_isOutput _ rfl)]
  show (opened.exec content).page.style.set font false = _
  rw [hstyle, hopened]

/-- **What a font macro leaves behind.** Wherever a source calls one, the program has its
instructions there, around those of its arguments or the next line. They are carried out without a
fault, and where no flag was set before, none is set afterwards, unless a font escape among the
arguments or on the line has selected the other font and no escape to the regular one follows. -/
theorem style_inFont (requested : Option Section)
    (hsource : Token.ofSource source = before ++ t :: after)
    (hcalled : t.called? = some (.inFont font)) :
    ∃ earlier content later, LineText 0 content 0 ∧
      program requested.isSome (Token.ofSource source) =
        earlier ++ (inFont t font content ++ later) ∧
      ∀ m : Machine, m.page.style = .plain →
        m.run (inFont t font content) = ⟨m.exec (inFont t font content), none⟩ ∧
        ((m.exec (inFont t font content)).page.style = .plain ↔ ¬ SelectsOther font content) := by
  have hplaced : ∀ u ∈ before ++ t :: after, u.IsPlaced := by
    rw [← hsource]
    exact fun u hu => Token.isPlaced_of_mem_ofSource hu
  obtain ⟨earlier, content, later, hcontent, hprogram⟩ :=
    exists_program_eq_inFont requested.isSome hcalled hplaced
  rw [← hsource] at hprogram
  refine ⟨earlier, content, later, hcontent, hprogram, fun m hm => ⟨?_, ?_⟩⟩
  · have hsound := (program_carries requested.isSome source).sound
    rw [hprogram] at hsound
    -- the faults of text are those of tokens out of order, and there are none
    have hsafe : ∀ i ∈ content, i.isSafe = true := by
      intro i hi
      have hline := hcontent.each i hi
      have hs := hsound i (by simp [inFont, hi])
      cases i with
      | fault cause =>
        obtain rfl : cause = .numberOverflow := hs
        exact Bool.noConfusion hline
      | closeMargins => exact Bool.noConfusion hline
      | _ => rfl
    refine Machine.run_eq fun i hi => ?_
    simp only [inFont, List.cons_append, List.mem_cons, List.mem_append, List.not_mem_nil,
      or_false] at hi
    rcases hi with rfl | rfl | hi | rfl | rfl
    · rfl
    · rfl
    · exact hsafe i hi
    · rfl
    · rfl
  · rw [Machine.style_exec_inFont hm hcontent]
    exact foldl_restyle_eq_plain_iff (Token.font_of_called? hcalled) hcontent.each

/-- The call of a font macro that is the tag of a paragraph. -/
def boldTag : Token :=
  ⟨.macroName, ".B".toList, true, 2, 1⟩

/-- A tag in bold with an escape to italics and one back. -/
theorem style_inFont_of_tag :
    (Token.ofSource ".TP\n.B \\fIab\\fR\ncd\n".toList =
        [⟨.macroName, ".TP".toList, true, 1, 1⟩] ++ boldTag ::
          (Token.ofSource ".TP\n.B \\fIab\\fR\ncd\n".toList).drop 2 ∧
      boldTag.called? = some (.inFont .bold)) ∧
    ∃ earlier content later, LineText 0 content 0 ∧
      program true (Token.ofSource ".TP\n.B \\fIab\\fR\ncd\n".toList) =
        earlier ++ (inFont boldTag .bold content ++ later) ∧
      ∀ m : Machine, m.page.style = .plain →
        m.run (inFont boldTag .bold content) = ⟨m.exec (inFont boldTag .bold content), none⟩ ∧
        ((m.exec (inFont boldTag .bold content)).page.style = .plain ↔
          ¬ SelectsOther .bold content) := by
  have htokens : Token.ofSource ".TP\n.B \\fIab\\fR\ncd\n".toList =
      [⟨.macroName, ".TP".toList, true, 1, 1⟩] ++ boldTag ::
        (Token.ofSource ".TP\n.B \\fIab\\fR\ncd\n".toList).drop 2 := by
    decide +kernel
  have hcalled : boldTag.called? = some (.inFont .bold) := by decide
  exact ⟨⟨htokens, hcalled⟩, style_inFont (some .name) htokens hcalled⟩

/-- An escape to italics in the argument of a macro for bold outlives the macro. -/
theorem not_forall_style_inFont :
    ¬ ∀ (source : Text) (requested : Option Section) (width : Int) (before after : List Token)
      (t : Token) (font : Font) (earlier content later : List Instr),
      Token.ofSource source = before ++ t :: after → t.called? = some (.inFont font) →
      program requested.isSome (Token.ofSource source) =
        earlier ++ (inFont t font content ++ later) →
      ((Machine.started requested width).exec earlier).page.style = .plain →
        ((Machine.started requested width).exec
          (earlier ++ inFont t font content)).page.style = .plain := by
  intro hall
  let source := ".B \\fIab\ncd\n".toList
  let is := program false (Token.ofSource source)
  have hstyle := hall source none 40 [] ((Token.ofSource source).drop 1)
    ⟨.macroName, ".B".toList, true, 1, 1⟩ .bold [.beginLine] ((is.drop 3).take 9) (is.drop 14)
    (by decide +kernel) (by decide) (by decide +kernel) rfl
  exact absurd hstyle (by decide +kernel)

end Manpage

import Manpage.Proofs.Program.Argument
import Manpage.Proofs.Prose.Title

/-!
# The program of a section heading

What a heading amounts to, records apart, in each of the forms that its title can have. Where only
sections are tracked, the heading enters the section of what the form makes of the title. In a whole
document it shows the words of the title between the instructions that begin and end a heading; the
forms differ in whether each word is a unit, and in how the words are separated.

## Main definitions

* `Manpage.withoutRecords` — instructions without the records among them.
* `Manpage.ReadsAs` — tokens that amount to given instructions, records apart.
* `Manpage.Title.Form.shown` — how the words of a title are shown.
* `Manpage.Title.Form.heading` — what a heading amounts to.

## Main results

* `Manpage.Title.Form.readsAs_shown`, `Manpage.Title.Form.readsAs_read` — the tokens of a title.
* `Manpage.Title.Form.exists_program_heading` — the program of a heading, and of the lines below.
-/

namespace Manpage

variable {isolating : Bool} {stack frames : List Frame} {t u : Token} {ts us : List Token}
  {is js es out after : List Instr} {rest : List Text} {title : Title} {form : Title.Form}

/-! ## Instructions without records -/

/-- Instructions without the records among them. -/
def withoutRecords (is : List Instr) : List Instr :=
  is.filter fun i => !i.isRecord

/-- Records are left out of two rows of instructions as of each. -/
theorem withoutRecords_append (is js : List Instr) :
    withoutRecords (is ++ js) = withoutRecords is ++ withoutRecords js :=
  List.filter_append ..

/-- Nothing but records leaves nothing. -/
theorem Records.withoutRecords_eq (h : Records is) : withoutRecords is = [] := by
  rw [withoutRecords, List.filter_eq_nil_iff]
  intro i hi
  simp [h i hi]

/-- Tokens that amount to given instructions, records apart, and leave nothing for the next line. -/
structure ReadsAs (isolating : Bool) (stack : List Frame) (ts : List Token) (es : List Instr) :
    Prop where
  effects_eq : withoutRecords (programFrom isolating stack ts) = es
  endsAtLine : ∀ f ∈ (feedAll isolating stack ts).frames, f.EndsAtLine

namespace ReadsAs

/-- No tokens read as what the frames have in store, if all of them end at the end of the line. -/
theorem nil (h : ∀ f ∈ stack, f.EndsAtLine) :
    ReadsAs isolating stack [] (withoutRecords (finish stack)) :=
  ⟨rfl, h⟩

/-- Tokens that lead from one stack to another, before others. -/
theorem append (hfeed : feedAll isolating stack ts = ⟨out, frames⟩)
    (h : ReadsAs isolating frames us es) :
    ReadsAs isolating stack (ts ++ us) (withoutRecords out ++ es) := by
  refine ⟨?_, ?_⟩
  · rw [programFrom_append, hfeed, withoutRecords_append, h.effects_eq]
  · rw [feedAll_append, hfeed]
    exact h.endsAtLine

/-- A token, and others behind it, read as what the token brings without records and what the others
read as. -/
theorem cons (hfeed : feed isolating stack t = ⟨out, frames⟩)
    (h : ReadsAs isolating frames ts es) :
    ReadsAs isolating stack (t :: ts) (withoutRecords out ++ es) := by
  have hfirst : feedAll isolating stack [t] = ⟨out, frames⟩ := by
    rw [feedAll_cons, hfeed]
    simp
  exact h.append hfirst

/-- The program of such tokens, and of others on the lines below. -/
theorem exists_program (h : ReadsAs isolating [] ts es)
    (hus : ∀ t ∈ us.head?, t.startsLine = true) :
    ∃ is, program isolating (ts ++ us) = is ++ program isolating us ∧ withoutRecords is = es :=
  ⟨_, program_append h.endsAtLine hus, h.effects_eq⟩

end ReadsAs

/-! ## Words with spaces between them -/

/-- A token with a lexeme has its class and its value. -/
theorem Token.kind_of_lexeme {k : TokenKind} {value : Text} (h : t.lexeme = ⟨k, value⟩) :
    t.kind = k ∧ t.value = value :=
  Lexeme.mk.inj h

/-- Words with a space before each, where a space and a word lead back to the same stack. By
induction on the words, each of which comes to the stack with the space before it. -/
theorem exists_feedAll_between (pair : Text → List Instr)
    (hpair : ∀ b u : Token, b.startsLine = false → u.startsLine = false → b.kind = .blank →
      b.value = [' '] → u.kind = .word → ∃ out, feedAll isolating stack [b, u] = ⟨out, stack⟩ ∧
        withoutRecords out = pair u.value)
    (hl : ∀ t ∈ ts, t.startsLine = false) (hts : ts.map Token.lexeme = Title.between rest) :
    ∃ out, feedAll isolating stack ts = ⟨out, stack⟩ ∧ withoutRecords out = rest.flatMap pair := by
  induction rest generalizing ts with
  | nil =>
    obtain rfl : ts = [] := List.map_eq_nil_iff.mp hts
    exact ⟨[], rfl, rfl⟩
  | cons v rest ih =>
    obtain ⟨b, ts, rfl, hb, hts⟩ := List.map_eq_cons_iff.mp hts
    obtain ⟨u, ts, rfl, hu, hts⟩ := List.map_eq_cons_iff.mp hts
    obtain ⟨hbl, hul, hl⟩ := List.forall_mem_cons.mp hl |>.imp_right List.forall_mem_cons.mp
    obtain ⟨hbk, hbv⟩ := Token.kind_of_lexeme hb
    obtain ⟨huk, huv⟩ := Token.kind_of_lexeme hu
    obtain ⟨first, hfirst, hpairs⟩ := hpair b u hbl hul hbk hbv huk
    obtain ⟨out, hout, hrest⟩ := ih hl hts
    refine ⟨first ++ out, ?_, ?_⟩
    · have hsplit : b :: u :: ts = [b, u] ++ ts := rfl
      rw [hsplit, feedAll_append, hfirst]
      simp only [hout]
    · rw [withoutRecords_append, hpairs, hrest, huv, List.flatMap_cons]

namespace Title

/-! ## Forms -/

namespace Form

/-- How a word of a title is shown: as a unit, or as a text. -/
def word : Form → Text → List Instr
  | quoted, w => [.emit w]
  | bare, w | nextLine, w => [.openWord, .emit w, .closeScope]

/-- How the words of a title are separated. -/
def separator : Form → Instr
  | bare => .space
  | quoted | nextLine => .blank [' ']

/-- What comes behind the last word of a title. -/
def last : Form → List Instr
  | bare | quoted => []
  | nextLine => [.endLine]

/-- **How a title is shown**: its words, with separators between them. -/
def shown (form : Form) (title : Title) : List Instr :=
  form.word title.first ++ (title.rest.flatMap fun v => form.separator :: form.word v) ++ form.last

/-- The tokens of a title behind the macro of the heading. -/
def Spells (title : Title) (ts : List Token) : Form → Prop
  | bare => (∀ u ∈ ts, u.startsLine = false) ∧
      ts.map Token.lexeme = ⟨.blank, [' ']⟩ :: ⟨.word, title.first⟩ :: between title.rest
  | quoted => (∀ u ∈ ts, u.startsLine = false) ∧
      ts.map Token.lexeme = ⟨.blank, [' ']⟩ :: ⟨.quote, ['"']⟩ :: ⟨.word, title.first⟩ ::
        (between title.rest ++ [⟨.quote, ['"']⟩])
  | nextLine => ∃ u us, ts = u :: us ∧ u.startsLine = true ∧ (∀ v ∈ us, v.startsLine = false) ∧
      ts.map Token.lexeme = ⟨.word, title.first⟩ :: between title.rest

/-- The tokens of a title that is given as arguments. -/
theorem exists_of_spells_bare (h : bare.Spells title ts) :
    ∃ b u us, ts = b :: u :: us ∧ b.lexeme = ⟨.blank, [' ']⟩ ∧ u.lexeme = ⟨.word, title.first⟩ ∧
      us.map Token.lexeme = between title.rest := by
  obtain ⟨-, hts⟩ := h
  obtain ⟨b, ts, rfl, hb, hts⟩ := List.map_eq_cons_iff.mp hts
  obtain ⟨u, us, rfl, hu, hus⟩ := List.map_eq_cons_iff.mp hts
  exact ⟨b, u, us, rfl, hb, hu, hus⟩

/-- The tokens of a title between quotes. A blank, a quote, the words with blanks between them, and
a quote. -/
theorem exists_of_spells_quoted (h : quoted.Spells title ts) :
    ∃ b q u us z, ts = b :: q :: u :: (us ++ [z]) ∧ b.lexeme = ⟨.blank, [' ']⟩ ∧
      q.lexeme = ⟨.quote, ['"']⟩ ∧ u.lexeme = ⟨.word, title.first⟩ ∧
      us.map Token.lexeme = between title.rest ∧ z.lexeme = ⟨.quote, ['"']⟩ := by
  obtain ⟨-, hts⟩ := h
  obtain ⟨b, ts, rfl, hb, hts⟩ := List.map_eq_cons_iff.mp hts
  obtain ⟨q, ts, rfl, hq, hts⟩ := List.map_eq_cons_iff.mp hts
  obtain ⟨u, ts, rfl, hu, hts⟩ := List.map_eq_cons_iff.mp hts
  obtain ⟨us, zs, rfl, hus, hzs⟩ := List.map_eq_append_iff.mp hts
  obtain ⟨z, zs, rfl, hz, hzs⟩ := List.map_eq_cons_iff.mp hzs
  obtain rfl : zs = [] := List.map_eq_nil_iff.mp hzs
  exact ⟨b, q, u, us, z, rfl, hb, hq, hu, hus, hz⟩

/-- The tokens of a heading: its macro, the title, and the tokens of other lines.

**Proof sketch.** By cases on the form. The macro is the first chunk of its line, and the rest of
the line spells the title, bare or between quotes; in the third form the macro has its line alone,
and the title is the next one. -/
theorem exists_ofLines_eq (form : Form) (title : Title) (number : Nat) (below : List Text) :
    ∃ t ts, Token.ofLines number (form.lines title ++ below) =
        t :: (ts ++ Token.ofLines (number + (form.lines title).length) below) ∧
      t.called? = some .heading ∧ t.startsLine = true ∧ form.Spells title ts := by
  have hcalled : ∀ t : Token, t.kind = .macroName → t.value = ".SH".toList →
      t.called? = some .heading := by
    intro t hk hv
    rw [Token.called?_of_kind hk, hv]
    decide
  cases form with
  | bare =>
    obtain ⟨t, ts, hline, hk, hv, hl, hts, hlexemes⟩ := Token.exists_ofLine_macroName number
      ".SH".toList (' ' :: title.text) (by decide) rfl (by decide) (by simp [isSpace])
    refine ⟨t, ts, ?_, hcalled t hk hv, hl, hts, hlexemes.trans title.ofText_bare⟩
    rw [lines, List.cons_append, List.nil_append, Token.ofLines, hline]
    rfl
  | quoted =>
    obtain ⟨t, ts, hline, hk, hv, hl, hts, hlexemes⟩ := Token.exists_ofLine_macroName number
      ".SH".toList (' ' :: '"' :: title.text ++ ['"']) (by decide) rfl (by decide)
      (by simp [isSpace])
    refine ⟨t, ts, ?_, hcalled t hk hv, hl, hts, hlexemes.trans title.ofText_quoted⟩
    rw [lines, List.cons_append, List.nil_append, Token.ofLines, hline]
    rfl
  | nextLine =>
    obtain ⟨t, ts, hline, hk, hv, hl, -, hlexemes⟩ := Token.exists_ofLine_macroName number
      ".SH".toList [] (by decide) rfl (by decide) (by simp)
    -- the line of the macro has no other token, and the next line is the title
    obtain rfl : ts = [] := List.map_eq_nil_iff.mp hlexemes
    obtain ⟨u, us, hnext, hul, -, -, hus⟩ := Token.exists_ofLine_eq_cons (number + 1)
      title.isBlank_text title.isCommentLine_text title.head?_text
    have hwords := Token.map_lexeme_ofLine (number + 1) title.isBlank_text
      title.isCommentLine_text title.head?_text
    rw [hnext, title.ofText_text] at hwords
    refine ⟨t, u :: us, ?_, hcalled t hk hv, hl, u, us, rfl, hul, hus, hwords⟩
    rw [List.append_nil] at hline
    rw [lines, List.cons_append, List.cons_append, List.nil_append, Token.ofLines, hline,
      Token.ofLines, hnext]
    rfl

/-! ## Whole documents -/

/-- Units with separators between them, as they are opened and closed one after another. By
induction on the words: what closes a unit is said behind it in the one row, and before the next one
in the other. -/
theorem units_eq (separator : Instr) (w : Text) (rest : List Text) :
    .openWord :: .emit w ::
        (rest.flatMap fun v => [.closeScope, separator, .openWord, .emit v]) ++ [.closeScope] =
      [.openWord, .emit w, .closeScope] ++
        rest.flatMap fun v => separator :: [.openWord, .emit v, .closeScope] := by
  induction rest generalizing w with
  | nil => rfl
  | cons v rest ih =>
    have hmore := ih v
    simp only [List.cons_append, List.nil_append, List.cons.injEq, true_and] at hmore
    simp [hmore]

/-- Stored instructions end at the end of a line. -/
theorem endsAtLine_afterwards (after : List Instr) : (Frame.afterwards after).EndsAtLine :=
  fun _ _ _ => rfl

/-- Arguments end at the end of their line. -/
theorem endsAtLine_arguments (first : Bool) : (Frame.arguments first).EndsAtLine := by
  intro _ t ht
  simp [Frame.react, ht, Frame.atEnd]

/-- Units that are read above a frame which turns the spaces between them into separators. Each unit
is closed by the space behind it, and the last one by the end of the line. -/
theorem readsAs_units {g : Frame} {separator : Instr} (hends : g.EndsAtLine)
    (hpair : ∀ b u : Token, b.startsLine = false → u.startsLine = false → b.kind = .blank →
      b.value = [' '] → u.kind = .word → ∃ out,
        feedAll false [.unit, g, .afterwards after] [b, u] =
          ⟨out, [.unit, g, .afterwards after]⟩ ∧
        withoutRecords out = [.closeScope, separator, .openWord, .emit u.value])
    (hl : ∀ t ∈ ts, t.startsLine = false) (hts : ts.map Token.lexeme = between rest) :
    ReadsAs false [.unit, g, .afterwards after] ts
      ((rest.flatMap fun v => [.closeScope, separator, .openWord, .emit v]) ++
        (.closeScope :: withoutRecords (g.atEnd ++ after))) := by
  obtain ⟨out, hfeed, hout⟩ := exists_feedAll_between
    (fun v => [.closeScope, separator, .openWord, .emit v]) hpair hl hts
  have hframes : ∀ f ∈ [Frame.unit, g, .afterwards after], f.EndsAtLine := by
    simp [Frame.endsAtLine_unit, hends, endsAtLine_afterwards]
  have hall := ReadsAs.append hfeed (ReadsAs.nil hframes)
  rw [List.append_nil, hout] at hall
  simpa [finish, Frame.atEnd, withoutRecords, Instr.isRecord] using hall

/-- The rest of a title that is given as arguments. A blank closes the unit of the word before it,
and a space comes before the next one. -/
theorem readsAs_bare (hl : ∀ t ∈ ts, t.startsLine = false)
    (hts : ts.map Token.lexeme = between rest) (after : List Instr) :
    ReadsAs false [.unit, .arguments false, .afterwards after] ts
      ((rest.flatMap fun v => [.closeScope, .space, .openWord, .emit v]) ++
        (.closeScope :: withoutRecords after)) := by
  refine readsAs_units (endsAtLine_arguments false) ?_ hl hts
  intro b u hbl hul hbk hbv huk
  refine ⟨[.closeScope, .consume b, .space, .openWord, .consume u, .emit u.value], ?_, rfl⟩
  simp [feedAll_cons, feed, Frame.react, hbl, hul, hbk, huk, Step.arguments, Step.argument,
    Step.unit, Step.word, Step.above, Step.preceded]

/-- The rest of a title on a line of its own. A blank closes the unit of the word before it, and
stands as it is before the next one; the line is ended behind the last. -/
theorem readsAs_nextLine (hl : ∀ t ∈ ts, t.startsLine = false)
    (hts : ts.map Token.lexeme = between rest) (after : List Instr) :
    ReadsAs false [.unit, .line, .afterwards after] ts
      ((rest.flatMap fun v => [.closeScope, .blank [' '], .openWord, .emit v]) ++
        (.closeScope :: .endLine :: withoutRecords after)) := by
  refine readsAs_units Frame.endsAtLine_line ?_ hl hts
  intro b u hbl hul hbk hbv huk
  refine ⟨[.closeScope, .consume b, .blank [' '], .openWord, .consume u, .emit u.value], ?_, rfl⟩
  simp [feedAll_cons, feed, Frame.react, hbl, hul, hbk, hbv, huk, Step.line, Step.run,
    Step.unit, Step.word, Step.above, Step.preceded]

/-- The rest of a title between quotes, with the quote at its end: its words and spaces are shown in
one word, and the quote closes it. -/
theorem readsAs_quoted (hul : u.startsLine = false) (huk : u.kind = .quote)
    (hl : ∀ t ∈ ts, t.startsLine = false) (hts : ts.map Token.lexeme = between rest)
    (after : List Instr) :
    ReadsAs false [.quoted, .arguments false, .afterwards after] (ts ++ [u])
      ((rest.flatMap fun v => [.blank [' '], .emit v]) ++ withoutRecords after) := by
  have hpair : ∀ b u : Token, b.startsLine = false → u.startsLine = false → b.kind = .blank →
      b.value = [' '] → u.kind = .word → ∃ out,
        feedAll false [.quoted, .arguments false, .afterwards after] [b, u] =
          ⟨out, [.quoted, .arguments false, .afterwards after]⟩ ∧
        withoutRecords out = [.blank [' '], .emit u.value] := by
    intro b u hbl hul hbk hbv huk
    refine ⟨[.consume b, .blank [' '], .consume u, .emit u.value], ?_, rfl⟩
    simp [feedAll_cons, feed, Frame.react, hbl, hul, hbk, hbv, huk, Step.word, Step.above]
  obtain ⟨out, hfeed, hout⟩ := exists_feedAll_between (fun v => [.blank [' '], .emit v]) hpair hl
    hts
  have hclose : feed false [.quoted, .arguments false, .afterwards after] u =
      ⟨[.consume u], [.arguments false, .afterwards after]⟩ := by
    simp [feed, Frame.react, hul, huk]
  have hends : ∀ f ∈ [Frame.arguments false, .afterwards after], f.EndsAtLine := by
    simp [endsAtLine_arguments, endsAtLine_afterwards]
  have hall := ReadsAs.append hfeed (ReadsAs.cons hclose (ReadsAs.nil hends))
  rw [hout] at hall
  simpa [finish, Frame.atEnd, withoutRecords, Instr.isRecord] using hall

/-- **A title in a whole document** is shown in its form, before what is stored below.

**Proof sketch.** By cases on the form. A bare title consists of arguments with spaces between them,
a quoted one is a single argument, and one on its own line is a line of text; what is stored comes
behind each. -/
theorem readsAs_shown (hspells : form.Spells title ts) (after : List Instr) :
    ReadsAs false [.argumentsOrLine, .afterwards after] ts
      (form.shown title ++ withoutRecords after) := by
  -- a space before the first argument is passed over
  have hspace : ∀ b : Token, b.startsLine = false → b.kind = .blank →
      feed false [.argumentsOrLine, .afterwards after] b =
        ⟨[.consume b], [.argumentsOrLine, .afterwards after]⟩ := by
    intro b hbl hbk
    simp [feed, Frame.react, hbl, hbk]
  cases form with
  | bare =>
    obtain ⟨b, u, us, rfl, hb, hu, hus⟩ := exists_of_spells_bare hspells
    obtain ⟨hbl, hul, hl⟩ :=
      List.forall_mem_cons.mp hspells.1 |>.imp_right List.forall_mem_cons.mp
    obtain ⟨huk, huv⟩ := Token.kind_of_lexeme hu
    have hfirst : feed false [.argumentsOrLine, .afterwards after] u =
        ⟨[.openWord, .consume u, .emit u.value],
          [.unit, .arguments false, .afterwards after]⟩ := by
      simp [feed, Frame.react, hul, huk, Step.arguments, Step.argument, Step.unit, Step.word,
        Step.above, Step.preceded]
    have hall := ReadsAs.cons (hspace b hbl (Token.kind_of_lexeme hb).1)
      (ReadsAs.cons hfirst (readsAs_bare hl hus after))
    have hunits := units_eq .space title.first title.rest
    simpa [shown, word, separator, last, withoutRecords, Instr.isRecord, huv, ← hunits] using hall
  | quoted =>
    obtain ⟨b, q, u, us, z, rfl, hb, hq, hu, hus, hz⟩ := exists_of_spells_quoted hspells
    have hlines := hspells.1
    simp only [List.forall_mem_cons, List.forall_mem_append] at hlines
    obtain ⟨hbl, hql, hul, hl, hzl, -⟩ := hlines
    obtain ⟨hqk, -⟩ := Token.kind_of_lexeme hq
    obtain ⟨huk, huv⟩ := Token.kind_of_lexeme hu
    have hopen : feed false [.argumentsOrLine, .afterwards after] q =
        ⟨[.consume q], [.quoted, .arguments false, .afterwards after]⟩ := by
      simp [feed, Frame.react, hql, hqk, Step.arguments, Step.argument, Step.above]
    have hfirst : feed false [.quoted, .arguments false, .afterwards after] u =
        ⟨[.consume u, .emit u.value], [.quoted, .arguments false, .afterwards after]⟩ := by
      simp [feed, Frame.react, hul, huk, Step.word, Step.above]
    have hall := ReadsAs.cons (hspace b hbl (Token.kind_of_lexeme hb).1)
      (ReadsAs.cons hopen (ReadsAs.cons hfirst
        (readsAs_quoted hzl (Token.kind_of_lexeme hz).1 hl hus after)))
    simpa [shown, word, separator, last, withoutRecords, Instr.isRecord, huv] using hall
  | nextLine =>
    obtain ⟨u, us, rfl, hul, hl, hts⟩ := hspells
    obtain ⟨hu, hts⟩ := List.cons.inj hts
    obtain ⟨huk, huv⟩ := Token.kind_of_lexeme hu
    have hfirst : feed false [.argumentsOrLine, .afterwards after] u =
        ⟨[.openWord, .consume u, .emit u.value], [.unit, .line, .afterwards after]⟩ := by
      simp [feed, Frame.react, hul, huk, Step.line, Step.run, Step.unit, Step.word, Step.above,
        Step.preceded]
    have hall := ReadsAs.cons hfirst (readsAs_nextLine hl hts after)
    have hunits := units_eq (.blank [' ']) title.first title.rest
    simpa [shown, word, separator, last, withoutRecords, Instr.isRecord, huv, ← hunits] using hall

/-! ## Sections that are tracked -/

/-- The characters of words with a space before each. -/
theorem valueOf_of_between (hts : ts.map Token.lexeme = between rest) :
    Token.valueOf ts = behind rest := by
  have hvalue : Token.valueOf ts = (ts.map Token.lexeme).flatMap Lexeme.value := by
    rw [List.flatMap_map]
    rfl
  rw [hvalue, hts, between, behind, List.flatMap_assoc]
  simp

/-- No token of such words is a quote. -/
theorem ne_quote_of_between (hts : ts.map Token.lexeme = between rest) :
    ∀ t ∈ ts, t.kind ≠ .quote := by
  intro t ht
  have hmem : t.lexeme ∈ between rest := hts ▸ List.mem_map_of_mem ht
  obtain ⟨v, -, hv⟩ := List.mem_flatMap.mp hmem
  rcases List.mem_pair.mp hv with hlexeme | hlexeme <;> simp [(Token.kind_of_lexeme hlexeme).1]

/-- The first of several arguments ends before the next one. A blank is behind it, or nothing. -/
theorem firstArgument?_bare {b : Token} (hb : b.lexeme = ⟨.blank, [' ']⟩)
    (hu : u.lexeme = ⟨.word, title.first⟩) (hts : ts.map Token.lexeme = between rest) :
    Token.firstArgument? (b :: u :: ts) = some title.first := by
  obtain ⟨huk, huv⟩ := Token.kind_of_lexeme hu
  have hnext : ts.takeWhile (fun v => v.kind ≠ .blank) = [] := by
    cases rest with
    | nil => simp [List.map_eq_nil_iff.mp hts]
    | cons v rest =>
      obtain ⟨c, ts, rfl, hc, -⟩ := List.map_eq_cons_iff.mp hts
      simp [(Token.kind_of_lexeme hc).1]
  rw [Token.firstArgument?, if_pos (Token.kind_of_lexeme hb).1, Token.firstArgument?,
    if_neg (by simp [huk]), if_neg (by simp [huk]), hnext, huv, Token.valueOf_nil, List.append_nil]

/-- A quoted argument ends at the quote. So it is the whole title, blanks included. -/
theorem firstArgument?_quoted {b q z : Token} (hb : b.lexeme = ⟨.blank, [' ']⟩)
    (hq : q.lexeme = ⟨.quote, ['"']⟩) (hu : u.lexeme = ⟨.word, title.first⟩)
    (hz : z.lexeme = ⟨.quote, ['"']⟩) (hts : ts.map Token.lexeme = between title.rest) :
    Token.firstArgument? (b :: q :: u :: (ts ++ [z])) = some title.text := by
  obtain ⟨huk, huv⟩ := Token.kind_of_lexeme hu
  have hnext : (u :: (ts ++ [z])).takeWhile (fun v => v.kind ≠ .quote) = u :: ts := by
    have hwords : ∀ v ∈ u :: ts, (decide (v.kind ≠ .quote)) = true := by
      simp only [List.forall_mem_cons, decide_eq_true_eq]
      exact ⟨by simp [huk], ne_quote_of_between hts⟩
    rw [← List.cons_append, List.takeWhile_append_of_pos hwords]
    simp [(Token.kind_of_lexeme hz).1]
  simp only [Token.firstArgument?, (Token.kind_of_lexeme hb).1, (Token.kind_of_lexeme hq).1, hnext,
    Token.valueOf_cons, valueOf_of_between hts, huv, text]
  rfl

/-- A line that is the title of a section. -/
theorem feedAll_titleLine (hl : ∀ t ∈ ts, t.startsLine = false) (v : Text) :
    feedAll isolating [.titleLine v] ts =
      ⟨ts.map .consume, [.titleLine (v ++ Token.valueOf ts)]⟩ := by
  induction ts generalizing v with
  | nil => simp [feedAll]
  | cons t ts ih =>
    obtain ⟨ht, hl⟩ := List.forall_mem_cons.mp hl
    simp [feedAll_cons, feed, Frame.react, ht, ih hl]

/-- A first argument is the title of the section. Records apart, the section is entered when the
argument is settled, and nothing comes after that. -/
theorem readsAs_argument {caller : Token} {v : Text} (hl : ∀ t ∈ ts, t.startsLine = false)
    (hv : Token.firstArgument? ts = some v) :
    ReadsAs isolating [.argument .title caller] ts [.enterSection (Section.ofTitle v)] := by
  obtain ⟨s, ⟨f, before, between, hframes, hbefore, hbetween, hout, hends⟩, hfeed⟩ :=
    exists_feedAll_argument isolating .title caller hl
  rw [hv] at hout hends
  have hall := hfeed []
  rw [hframes, List.append_nil] at hall
  refine ⟨?_, ?_⟩
  · have hinstrs : s.out ++ finish [f] = s.out ++ f.atEnd := by simp [finish]
    rw [programFrom_eq, hall, hinstrs, hout]
    simp only [withoutRecords_append, hbefore.withoutRecords_eq, hbetween.withoutRecords_eq]
    rfl
  · rw [hall]
    simpa using hends fun _ => Option.some_ne_none v

/-- **A title where only sections are tracked** enters the section of what its form makes of it.

**Proof sketch.** By cases on the form. The bare title has its first word as the argument, which is
all that is read of it. A quoted title is the argument as a whole, and so is one on its own line. -/
theorem readsAs_read (hspells : form.Spells title ts) (caller : Token) :
    ReadsAs true [.argument .title caller] ts
      [.enterSection (Section.ofTitle (form.read title))] := by
  cases form with
  | bare =>
    obtain ⟨b, u, us, rfl, hb, hu, hus⟩ := exists_of_spells_bare hspells
    exact readsAs_argument hspells.1 (firstArgument?_bare hb hu hus)
  | quoted =>
    obtain ⟨b, q, u, us, z, rfl, hb, hq, hu, hus, hz⟩ := exists_of_spells_quoted hspells
    exact readsAs_argument hspells.1 (firstArgument?_quoted hb hq hu hz hus)
  | nextLine =>
    obtain ⟨u, us, rfl, hul, hl, hts⟩ := hspells
    obtain ⟨hu, hts⟩ := List.cons.inj hts
    obtain ⟨huk, huv⟩ := Token.kind_of_lexeme hu
    have hfirst : feed true [.argument .title caller] u =
        ⟨[.consume u], [.titleLine title.first]⟩ := by
      simp [feed, Frame.react, hul, huk, huv]
    have hrest : ReadsAs true [.titleLine title.first] us
        [.enterSection (Section.ofTitle title.text)] := by
      have htext : (title.first ++ Token.valueOf us).strip = title.text := by
        rw [valueOf_of_between hts]
        exact title.strip_text
      refine ⟨?_, ?_⟩
      · rw [programFrom_eq, feedAll_titleLine hl, withoutRecords_append,
          (records_map_consume us).withoutRecords_eq, ← htext]
        rfl
      · rw [feedAll_titleLine hl]
        simp [Frame.EndsAtLine, Frame.react, Frame.atEnd]
    exact ReadsAs.cons hfirst hrest

/-! ## Headings -/

/-- **What a heading amounts to**, records apart. -/
def heading (form : Form) (title : Title) : Bool → List Instr
  | true => [.beginLine, .enterSection (Section.ofTitle (form.read title))]
  | false => [.beginLine, .clearMargins, .setIndent 0, .blankLine, .openStyle .bold] ++
      (form.shown title ++ [.closeScope, .sectionMargin, .setIndent 0, .lineBreak])

/-- **The program of a heading**, and of other lines after it.

**Proof sketch.** The macro is called with nothing open. Where sections are isolated it leaves a
frame for the title as its argument, and in a whole document the frames that show it; behind the
title all of them end with the line. -/
theorem exists_program_heading (isolating : Bool) (form : Form) (title : Title) (number : Nat)
    (below : List Text) :
    ∃ is, program isolating (Token.ofLines number (form.lines title ++ below)) =
        is ++ program isolating (Token.ofLines (number + (form.lines title).length) below) ∧
      withoutRecords is = form.heading title isolating := by
  obtain ⟨t, ts, htokens, hcalled, hl, hspells⟩ := form.exists_ofLines_eq title number below
  have hk := Token.kind_of_called? hcalled
  have hname : Macro.ofName? t.value = some .heading :=
    (Token.called?_of_kind hk).symm.trans hcalled
  have hreads : ReadsAs isolating [] (t :: ts) (form.heading title isolating) := by
    cases isolating with
    | true =>
      have hcall : feed true [] t = ⟨[.beginLine, .consume t], [.argument .title t]⟩ := by
        simp [feed, Step.top, hk, hl, Step.call, hname, Step.preceded]
      exact ReadsAs.cons hcall (readsAs_read hspells t)
    | false =>
      have hcall : feed false [] t =
          ⟨[.beginLine, .consume t, .clearMargins, .setIndent 0, .blankLine, .openStyle .bold],
            [.argumentsOrLine,
              .afterwards [.closeScope, .sectionMargin, .setIndent 0, .lineBreak]]⟩ := by
        simp [feed, Step.top, hk, hl, Step.call, hname, Step.preceded]
      exact ReadsAs.cons hcall (readsAs_shown hspells _)
  rw [htokens, ← List.cons_append]
  exact hreads.exists_program (Token.startsLine_head?_ofLines _ below)

end Form

end Title

end Manpage

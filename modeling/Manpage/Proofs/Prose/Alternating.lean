import Manpage.Proofs.Page.Fitting
import Manpage.Proofs.Program.Sound
import Manpage.Proofs.Token.Lexemes

/-!
# Arguments in two fonts

The line of an alternating macro: arguments with blanks before each. An argument is a word, or words
and blanks between quotes, and the quote of the last argument may be missing. The arguments take the
two fonts of the macro by turns, so the font of a word follows from the number of arguments before
its own, whatever blanks there are and whether an argument has any word in it.

## Main definitions

* `Manpage.Alternating.Argument` — an argument of plain characters, with its words.
* `Manpage.Alternating.Line` — the line behind the name of the macro, with
  `Manpage.Alternating.Line.source` and `Manpage.Alternating.Line.lexemes`.
* `Manpage.Alternating.turns` — the words of arguments, each in the font of its argument.

## Main results

* `Manpage.Alternating.Line.ofText_source` — the lexemes of a line.
* `Manpage.Alternating.Line.exists_ofLine_eq` — the tokens of a line that calls a macro.
-/

namespace Manpage

/-! ## Names of macros -/

/-- The name of a macro that has an effect is ink, begins with a point and is no comment. It is in
the table, or is an alias for a name in the table. -/
theorem Macro.isName_of_ofName? {name : Text} {m : Macro} (h : Macro.ofName? name = some m) :
    name.isInk = true ∧ name.head? = some '.' ∧ isComment name = false := by
  have hnames : ∀ p ∈ Macro.names,
      Text.isInk p.1 = true ∧ p.1.head? = some '.' ∧ isComment p.1 = false := by decide
  have hmem := Macro.mem_names h
  unfold Macro.canonicalName at hmem
  split at hmem
  · decide
  · decide
  · exact hnames _ hmem

namespace Alternating

/-! ## Arguments -/

/-- Blanks before an argument. -/
abbrev Gap :=
  { t : Text // t ≠ [] ∧ t.isBlank = true }

/-- A text without a quote or a backslash. -/
abbrev Plain :=
  { t : Text // ∀ c ∈ t, Lexeme.isPlain c = true }

/-- An argument of plain characters. -/
inductive Argument where
  /-- a word -/
  | bare (w : Plain) (ne_nil : w.1 ≠ []) (isInk : w.1.isInk = true)
  /-- words and blanks between quotes, if any -/
  | quoted (t : Plain)

/-- What ends the arguments. -/
inductive LineEnding where
  /-- blanks, if any -/
  | blanks (b : Text) (isBlank : b.isBlank = true)
  /-- an argument with a quote before it and none behind it -/
  | unclosed (gap : Gap) (t : Plain)

/-- The line of an alternating macro, behind the name of the macro. -/
structure Line where
  arguments : List (Gap × Argument)
  ending : LineEnding

namespace Argument

/-- An argument as it is written. -/
def source : Argument → Text
  | bare w _ _ => w.1
  | quoted t => '"' :: (t.1 ++ ['"'])

/-- The lexemes of an argument. -/
def lexemes : Argument → List Lexeme
  | bare w _ _ => [⟨.word, w.1⟩]
  | quoted t => ⟨.quote, ['"']⟩ :: ((t.1.splitBy sameChunk).map Lexeme.ofPlain ++ [⟨.quote, ['"']⟩])

/-- The words of an argument. Between quotes, they are what blanks separate. -/
def words : Argument → List Text
  | bare w _ _ => [w.1]
  | quoted t => (t.1.splitBy sameChunk).filter fun m => !Text.isBlank m

end Argument

/-! ## Turns -/

/-- **The words of arguments, each in the font of its argument**: those of the arguments with an
even number, counted from zero, in the first font, and those of the others in the second. -/
def turns (odd even : Font) (args : List Argument) : List Piece :=
  args.zipIdx.flatMap fun a =>
    a.1.words.map fun w => ⟨w, (if a.2 % 2 = 0 then odd else even).face?⟩

/-- After an argument the fonts change places. The places of the others go up by one. -/
theorem turns_cons (odd even : Font) (a : Argument) (args : List Argument) :
    turns odd even (a :: args) = a.words.map (⟨·, odd.face?⟩) ++ turns even odd args := by
  have hparity : ∀ n : Nat, (if (n + 1) % 2 = 0 then odd else even) =
      if n % 2 = 0 then even else odd := by
    intro n
    rcases Nat.mod_two_eq_zero_or_one n with h | h <;> simp [Nat.add_mod, h]
  rw [turns, List.zipIdx_cons, List.zipIdx_succ, List.flatMap_cons, List.flatMap_map, turns]
  simp only [hparity]
  rfl

/-- The words of arguments in their fonts are the words of the arguments, whatever the fonts. -/
theorem map_text_turns (odd even : Font) (args : List Argument) :
    (turns odd even args).map Piece.text = args.flatMap Argument.words := by
  induction args generalizing odd even with
  | nil => rfl
  | cons a args ih =>
    rw [turns_cons, List.map_append, ih, List.map_map, List.flatMap_cons]
    exact congrArg (· ++ _) (List.map_id a.words)

/-! ## Lines -/

/-- The lexemes of blanks. -/
def gapLexemes (b : Text) : List Lexeme :=
  (b.splitBy sameChunk).map (⟨.blank, ·⟩)

namespace LineEnding

/-- What is written for the end of a line. -/
def source : LineEnding → Text
  | blanks b _ => b
  | unclosed gap t => gap.1 ++ '"' :: t.1

/-- The lexemes of the end of a line. -/
def lexemes : LineEnding → List Lexeme
  | blanks b _ => gapLexemes b
  | unclosed gap t =>
    gapLexemes gap.1 ++ ⟨.quote, ['"']⟩ :: (t.1.splitBy sameChunk).map Lexeme.ofPlain

/-- The argument whose quote is not closed. It counts like others. -/
def arguments : LineEnding → List Argument
  | blanks _ _ => []
  | unclosed _ t => [.quoted t]

end LineEnding

namespace Line

/-- A line as it is written, behind the name of the macro. -/
def source (l : Line) : Text :=
  l.arguments.flatMap (fun a => a.1.1 ++ a.2.source) ++ l.ending.source

/-- The lexemes of a line. -/
def lexemes (l : Line) : List Lexeme :=
  l.arguments.flatMap (fun a => gapLexemes a.1.1 ++ a.2.lexemes) ++ l.ending.lexemes

/-- All arguments of a line. -/
def all (l : Line) : List Argument :=
  l.arguments.map Prod.snd ++ l.ending.arguments

/-- The words of a line. -/
def words (l : Line) : List Text :=
  l.all.flatMap Argument.words

/-- The words of a line, each in the font of its argument. -/
def pieces (odd even : Font) (l : Line) : List Piece :=
  turns odd even l.all

/-- The words of a line in their fonts are the words of the line. -/
theorem map_text_pieces (odd even : Font) (l : Line) :
    (l.pieces odd even).map Piece.text = l.words :=
  map_text_turns odd even l.all

end Line

/-! ## Lexemes -/

/-- Blanks before an argument are blanks on their own. -/
theorem ofText_gap {b rest : Text} (hb : b.isBlank = true)
    (hrest : ∀ d ∈ rest.head?, isSpace d = false) :
    Lexeme.ofText (b ++ rest) = gapLexemes b ++ Lexeme.ofText rest :=
  Lexeme.ofText_blank hb hrest

/-- An argument begins with ink. A quoted one begins with its quote. -/
theorem Argument.isSpace_of_mem_head?_source (a : Argument) (rest : Text) :
    ∀ d ∈ (a.source ++ rest).head?, isSpace d = false := by
  cases a with
  | bare w hne hink =>
    intro d hd
    rw [source, List.head?_append_of_ne_nil _ hne] at hd
    exact Text.isInk_iff.mp hink d (List.mem_of_mem_head? hd)
  | quoted t =>
    intro d hd
    obtain rfl : '"' = d := by simpa [source] using hd
    rfl

/-- The lexemes of an argument, before blanks or at the end. A bare one is ink up to the blanks; a
quoted one is a quote, the chunks between the quotes, and a quote. -/
theorem Argument.ofText_source (a : Argument) {rest : Text}
    (hrest : ∀ d ∈ rest.head?, isSpace d = true) :
    Lexeme.ofText (a.source ++ rest) = a.lexemes ++ Lexeme.ofText rest := by
  cases a with
  | bare w hne hink =>
    exact Lexeme.ofText_word hne hink w.2 fun d hd => Or.inl (hrest d hd)
  | quoted t =>
    have hsource : (quoted t).source ++ rest = '"' :: (t.1 ++ '"' :: rest) := by simp [source]
    rw [hsource, Lexeme.ofText_quote, Lexeme.ofText_plain t.2 (by simp [Lexeme.isPlain]),
      Lexeme.ofText_quote]
    simp [lexemes]

/-- The end of a line is read as its lexemes: blanks are cut where the line is, and the quote that
is missing makes no difference to those before it. -/
theorem LineEnding.ofText_source (e : LineEnding) : Lexeme.ofText e.source = e.lexemes := by
  cases e with
  | blanks b hb =>
    have hend : ∀ d ∈ ([] : Text).head?, isSpace d = false := by simp
    have hgap := ofText_gap hb hend
    rwa [List.append_nil, Lexeme.ofText_nil, List.append_nil] at hgap
  | unclosed gap t =>
    have hend : ∀ d ∈ ([] : Text).head?, Lexeme.isPlain d = false := by simp
    have ht := Lexeme.ofText_plain t.2 hend
    rw [List.append_nil, Lexeme.ofText_nil, List.append_nil] at ht
    rw [source, ofText_gap gap.2.2 (by simp [isSpace]), Lexeme.ofText_quote, ht, lexemes]

/-- Blanks, if anything, come after the name of the macro and after an argument. A gap is not empty
and is blank throughout. -/
theorem Line.isSpace_of_mem_head?_source (l : Line) : ∀ d ∈ l.source.head?, isSpace d = true := by
  have hgap : ∀ (gap : Gap) (rest : Text), ∀ d ∈ (gap.1 ++ rest).head?, isSpace d = true := by
    intro gap rest d hd
    rw [List.head?_append_of_ne_nil _ gap.2.1] at hd
    exact Text.isBlank_iff.mp gap.2.2 d (List.mem_of_mem_head? hd)
  obtain ⟨args, ending⟩ := l
  cases args with
  | cons a args =>
    have hsource : source ⟨a :: args, ending⟩ = a.1.1 ++ (a.2.source ++ source ⟨args, ending⟩) := by
      simp [source]
    rw [hsource]
    exact hgap a.1 _
  | nil =>
    cases ending with
    | blanks b hb => exact fun d hd => Text.isBlank_iff.mp hb d (List.mem_of_mem_head? hd)
    | unclosed gap t => exact hgap gap _

/-- **The lexemes of a line** are those of its arguments and of the blanks between them. By
induction on the arguments, each with the gap before it. -/
theorem Line.ofText_source (l : Line) : Lexeme.ofText l.source = l.lexemes := by
  obtain ⟨args, ending⟩ := l
  induction args with
  | nil => exact ending.ofText_source
  | cons a args ih =>
    have hsource : source ⟨a :: args, ending⟩ = a.1.1 ++ (a.2.source ++ source ⟨args, ending⟩) := by
      simp [source]
    rw [hsource, ofText_gap a.1.2.2 (a.2.isSpace_of_mem_head?_source _),
      a.2.ofText_source (isSpace_of_mem_head?_source _), ih]
    simp [lexemes]

/-- **The tokens of a line that calls a macro**: its name, and the lexemes of what follows. The name
ends where the blanks begin. -/
theorem Line.exists_ofLine_eq (l : Line) (number : Nat) {name : Text} {m : Macro}
    (h : Macro.ofName? name = some m) :
    ∃ t ts, Token.ofLine number (name ++ l.source) = t :: ts ∧ t.kind = .macroName ∧
      t.value = name ∧ t.startsLine = true ∧ (∀ u ∈ ts, u.startsLine = false) ∧
      ts.map Token.lexeme = l.lexemes := by
  obtain ⟨hink, hpoint, hcomment⟩ := Macro.isName_of_ofName? h
  have hline := Token.exists_ofLine_macroName number name l.source hink hpoint hcomment
    l.isSpace_of_mem_head?_source
  rwa [l.ofText_source] at hline

end Alternating

end Manpage

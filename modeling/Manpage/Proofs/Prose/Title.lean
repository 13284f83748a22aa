import Manpage.Proofs.Prose.Line
import Manpage.Proofs.Token.Lexemes
import Manpage.Section

/-!
# Titles of sections

The title of a section can be written in three ways: as the arguments of its macro, as one quoted
argument, and on the next line. The lexemes are the words of the title with spaces between them,
with the quotes around them where there are any.

## Main definitions

* `Manpage.Title` — a title of plain words.
* `Manpage.Title.Form` — the ways to write a title, with `Manpage.Title.Form.lines`.

## Main results

* `Manpage.Title.ofText_text`, `Manpage.Title.ofText_quoted` — the lexemes of a title.
-/

namespace Manpage

/-- A title of plain words. None of them has a backslash or a quote in it, and the first does not
begin with a point. -/
structure Title where
  first : Text
  rest : List Text
  ne_nil : ∀ w ∈ first :: rest, w ≠ []
  isInk : ∀ w ∈ first :: rest, w.isInk = true
  isPlain : ∀ w ∈ first :: rest, ∀ c ∈ w, Lexeme.isPlain c = true
  no_point : first.head? ≠ some '.'

namespace Title

variable {t : Title} {w e : Text} {rest : List Text}

/-- The words of a title. -/
def words (t : Title) : List Text :=
  t.first :: t.rest

/-- Words behind others, each with a space before it. -/
def behind (rest : List Text) : Text :=
  rest.flatMap (' ' :: ·)

/-- The words of a title with single spaces between them. -/
def text (t : Title) : Text :=
  t.first ++ behind t.rest

/-- A way to write the title of a section. -/
inductive Form where
  /-- as arguments of the macro -/
  | bare
  /-- as one argument between quotes -/
  | quoted
  /-- on the line after the macro -/
  | nextLine
deriving DecidableEq

/-- The lines that a title is written on. -/
def Form.lines : Form → Title → List Text
  | bare, t => [".SH".toList ++ ' ' :: t.text]
  | quoted, t => [".SH".toList ++ (' ' :: '"' :: t.text ++ ['"'])]
  | nextLine, t => [".SH".toList, t.text]

/-- What the form makes of a title where only sections are tracked: of several arguments, the first
alone counts. -/
def Form.read : Form → Title → Text
  | bare, t => t.first
  | quoted, t | nextLine, t => t.text

/-! ## Sections -/

/-- A title of several words is that of no section. It has a space in it, and no title of a section
has. -/
theorem ofTitle_text_of_rest (h : t.rest ≠ []) : Section.ofTitle t.text = .unknown := by
  have hspace : ' ' ∈ t.text := by
    obtain ⟨v, rest, heq⟩ := List.exists_cons_of_ne_nil h
    simp [text, behind, heq]
  have hnone : ∀ s ∈ Section.all, s.title ≠ t.text := by
    intro s _ heq
    rw [← heq] at hspace
    cases s <;> exact absurd hspace (by decide)
  rw [Section.ofTitle, List.find?_eq_none.mpr]
  · rfl
  · intro s hs
    simpa using hnone s hs

/-- **The section of a title** is the same in all forms, except that the arguments of the macro are
taken for a section that the first of several names. -/
theorem ofTitle_read_eq_iff (form : Form) (t : Title) :
    Section.ofTitle (form.read t) = Section.ofTitle t.text ↔
      form ≠ .bare ∨ t.rest = [] ∨ Section.ofTitle t.first = .unknown := by
  cases form with
  | bare =>
    by_cases hrest : t.rest = []
    · simp [Form.read, text, behind, hrest]
    · simp [Form.read, ofTitle_text_of_rest hrest, hrest]
  | quoted | nextLine => simp [Form.read]

/-! ## Lexemes -/

/-- The lexemes of words with a space before each. -/
def between (rest : List Text) : List Lexeme :=
  rest.flatMap fun v => [⟨.blank, [' ']⟩, ⟨.word, v⟩]

/-- Behind the first word of a title there is a space, if there is anything. -/
theorem isSpace_of_mem_head?_behind (rest : List Text) :
    ∀ d ∈ (behind rest).head?, isSpace d = true := by
  cases rest with
  | nil => simp [behind]
  | cons v rest =>
    intro d hd
    obtain rfl : ' ' = d := by simpa [behind] using hd
    rfl

/-- A text that begins with a word of ink begins with no blank. -/
theorem isSpace_of_mem_head? (hne : w ≠ []) (hink : w.isInk = true) (u : Text) :
    ∀ d ∈ (w ++ u).head?, isSpace d = false := by
  intro d hd
  rw [List.head?_append_of_ne_nil _ hne] at hd
  exact Text.isInk_iff.mp hink d (List.mem_of_mem_head? hd)

/-- The lexemes of words, with a quote behind the last of them or none. By induction on the words:
each is a lexeme of its own, as a space or the quote ends it. -/
theorem ofText_words (he : ∀ d ∈ e.head?, Lexeme.isPlain d = false) (hne : ∀ v ∈ w :: rest, v ≠ [])
    (hink : ∀ v ∈ w :: rest, v.isInk = true)
    (hplain : ∀ v ∈ w :: rest, ∀ c ∈ v, Lexeme.isPlain c = true) :
    Lexeme.ofText (w ++ (behind rest ++ e)) =
      ⟨.word, w⟩ :: (between rest ++ Lexeme.ofText e) := by
  induction rest generalizing w with
  | nil =>
    exact Lexeme.ofText_word (hne w List.mem_cons_self) (hink w List.mem_cons_self)
      (hplain w List.mem_cons_self) fun d hd => Or.inr (he d hd)
  | cons v rest ih =>
    obtain ⟨hw, hne⟩ := List.forall_mem_cons.mp hne
    obtain ⟨hwink, hink⟩ := List.forall_mem_cons.mp hink
    obtain ⟨hwplain, hplain⟩ := List.forall_mem_cons.mp hplain
    have hv := isSpace_of_mem_head? (hne v List.mem_cons_self) (hink v List.mem_cons_self)
    have hbehind : behind (v :: rest) ++ e = ' ' :: (v ++ (behind rest ++ e)) := by
      simp [behind]
    rw [hbehind, Lexeme.ofText_word hw hwink hwplain (by simp [isSpace]),
      Lexeme.ofText_space (hv _), ih hne hink hplain]
    rfl

/-- A title begins with no blank. -/
theorem isSpace_of_mem_head?_first (t : Title) (u : Text) :
    ∀ d ∈ (t.first ++ u).head?, isSpace d = false :=
  isSpace_of_mem_head? (t.ne_nil _ List.mem_cons_self) (t.isInk _ List.mem_cons_self) u

/-- **The lexemes of a title** are its words, with spaces between them. -/
theorem ofText_text (t : Title) :
    Lexeme.ofText t.text = ⟨.word, t.first⟩ :: between t.rest := by
  have hwords := ofText_words (e := []) (by simp) t.ne_nil t.isInk t.isPlain
  rwa [List.append_nil, Lexeme.ofText_nil, List.append_nil] at hwords

/-- A title that is given as arguments. -/
theorem ofText_bare (t : Title) :
    Lexeme.ofText (' ' :: t.text) = ⟨.blank, [' ']⟩ :: ⟨.word, t.first⟩ :: between t.rest := by
  have hspace : Lexeme.ofText (' ' :: t.text) = ⟨.blank, [' ']⟩ :: Lexeme.ofText t.text :=
    Lexeme.ofText_space (t.isSpace_of_mem_head?_first (behind t.rest))
  rw [hspace, ofText_text]

/-- **The lexemes of a title between quotes** are the same, with the quotes around them. A quote is
a lexeme of its own on either side of a word. -/
theorem ofText_quoted (t : Title) :
    Lexeme.ofText (' ' :: '"' :: t.text ++ ['"']) =
      ⟨.blank, [' ']⟩ :: ⟨.quote, ['"']⟩ :: ⟨.word, t.first⟩ ::
        (between t.rest ++ [⟨.quote, ['"']⟩]) := by
  have hwords := ofText_words (e := ['"']) (by simp [Lexeme.isPlain]) t.ne_nil t.isInk t.isPlain
  have hline : ' ' :: '"' :: t.text ++ ['"'] =
      ' ' :: '"' :: (t.first ++ (behind t.rest ++ ['"'])) := by
    simp [text]
  rw [hline, Lexeme.ofText_space (by simp [isSpace]), Lexeme.ofText_quote, hwords,
    Lexeme.ofText_quote, Lexeme.ofText_nil]

/-! ## Lines -/

/-- A title on a line of its own is no comment. Its first word begins with no point and has no
backslash. -/
theorem isCommentLine_text (t : Title) : isCommentLine t.text = false := by
  have hsplit := splitBy_ink_append (t.ne_nil _ List.mem_cons_self) (t.isInk _ List.mem_cons_self)
    (isSpace_of_mem_head?_behind t.rest)
  have hbackslash : '\\' ∉ t.first := by
    intro hmem
    exact absurd (t.isPlain _ List.mem_cons_self _ hmem) (by decide)
  rw [isCommentLine, Chunk.ofLine, text, hsplit]
  refine Prose.isComment_eq_false ?_ ?_
  · intro heq
    exact t.no_point (congrArg List.head? heq)
  · intro leader hleader hstart
    refine hbackslash (hstart.subset ?_)
    simp only [commentLeaders, List.mem_cons, List.not_mem_nil, or_false] at hleader
    rcases hleader with rfl | rfl | rfl | rfl <;> simp

/-- A title is not blank. -/
theorem isBlank_text (t : Title) : t.text.isBlank = false := by
  rw [text, Text.isBlank_append, Text.isBlank_eq_false_of_isInk (t.isInk _ List.mem_cons_self)
    (t.ne_nil _ List.mem_cons_self), Bool.false_and]

/-- A title begins with no point, so that on a line of its own it is not taken for the line of a
macro. -/
theorem head?_text (t : Title) : t.text.head? ≠ some '.' := by
  rw [text, List.head?_append_of_ne_nil _ (t.ne_nil _ List.mem_cons_self)]
  exact t.no_point

/-- No blank stands at either end of a title. It begins with its first word and ends with its last,
which are of ink. -/
theorem strip_text (t : Title) : t.text.strip = t.text := by
  have hfirst : t.text.dropWhile isSpace = t.text := by
    have hhead := t.isSpace_of_mem_head?_first (behind t.rest)
    rw [← text] at hhead
    cases htext : t.text with
    | nil => rfl
    | cons c u =>
      rw [htext] at hhead
      exact List.dropWhile_cons_of_neg (by simp [hhead c rfl])
  have hlast : t.text.stripRight = t.text := by
    rcases List.eq_nil_or_concat t.rest with hrest | ⟨init, v, hrest⟩
    · rw [text, hrest, behind, List.flatMap_nil, List.append_nil]
      exact Text.stripRight_of_isInk (t.isInk _ List.mem_cons_self)
    · have hmem : v ∈ t.first :: t.rest := by simp [hrest]
      have htext : t.text = (t.first ++ behind init ++ [' ']) ++ v := by
        simp [text, hrest, behind]
      rw [htext]
      exact Text.stripRight_append_of_isInk _ (t.isInk v hmem) (t.ne_nil v hmem)
  rw [Text.strip, hfirst, hlast]

end Title

end Manpage

import Manpage.Proofs.Program.Styled
import Manpage.Proofs.Prose.Line
import Manpage.Proofs.Text.Shown

/-!
# Words with font escapes

A plain word may have font escapes anywhere in it, at its start and at its end too. It is read as
the plain word. What is left of the escapes are changes of the style, and a mark where one of them
ends a word at the end of its line.

## Main definitions

* `Manpage.Styled.Item`, `Manpage.Styled.Word`, `Manpage.Styled.Line` — the parts of a word, words,
  and lines of them.
* `Manpage.Styled.source`, `Manpage.Styled.marks` — what is written for lines, and their words with
  their marks.
* `Manpage.Styled.Line.plain` — the same line without the font escapes.

## Main results

* `Manpage.Styled.Word.readsStyled` — a word is read as what is left of it without the escapes.
* `Manpage.Styled.exists_program` — the program of lines of such words.
-/

namespace Manpage

variable {p u v : Text} {ends : Bool}

/-! ## Escapes in a chunk -/

/-- Plain text before an escape has lexemes of its own.

**Proof sketch.** By induction on the length of the plain text. A run of plain characters ends
before the backslash at the latest, so that it is the same with or without the escape. -/
theorem Lexeme.ofChunk_append_escape (hp : '\\' ∉ p) (u : Text) :
    ofChunk (p ++ '\\' :: u) = ofChunk p ++ ofChunk ('\\' :: u) := by
  induction hn : p.length using Nat.strong_induction_on generalizing p with
  | _ n ih =>
    cases p with
    | nil => simp [ofChunk]
    | cons c t =>
      rw [List.mem_cons, not_or] at hp
      have hc : (c == '\\') = false := by
        rw [beq_eq_false_iff_ne]
        exact Ne.symm hp.1
      -- a plain lexeme ends before the backslash, since that is not plain
      have htake : (t ++ '\\' :: u).takeWhile isPlain = t.takeWhile isPlain := by
        rw [List.takeWhile_append]
        split
        · rename_i hall
          rw [List.takeWhile_cons_of_neg (by decide), List.append_nil]
          exact ((List.takeWhile_prefix isPlain).eq_of_length hall).symm
        · rfl
      have hdrop : (t ++ '\\' :: u).dropWhile isPlain = t.dropWhile isPlain ++ '\\' :: u := by
        rw [List.dropWhile_append]
        split
        · rename_i hnil
          rw [List.isEmpty_iff.mp hnil, List.dropWhile_cons_of_neg (by decide), List.nil_append]
        · rfl
      rw [List.cons_append, ofChunk, ofChunk, hc, htake, hdrop]
      split
      · exact congrArg (List.cons _) (ih t.length (by simp [← hn]) hp.2 rfl)
      · have hrest := (List.dropWhile_sublist (l := t) isPlain)
        refine congrArg (List.cons _) (ih _ ?_ (fun hmem => hp.2 (hrest.subset hmem)) rfl)
        rw [← hn, List.length_cons]
        exact Nat.lt_succ_of_le hrest.length_le

/-- A plain text is read as it is. By induction on its characters, each a quote or plain. -/
theorem reads_of_plain (hp : p.isInk = true) (hp' : '\\' ∉ p) : Reads p p := by
  induction p with
  | nil => exact Reads.nil
  | cons c p ih =>
    rw [Text.isInk_cons, Bool.and_eq_true, Bool.not_eq_true'] at hp
    rw [List.mem_cons, not_or] at hp'
    have hrest := ih hp.2 hp'.2
    by_cases hquote : c = '"'
    · rw [hquote]
      exact hrest.quote
    · refine hrest.plain ?_ hp.1
      simp [Lexeme.isPlain, hquote, Ne.symm hp'.1]

namespace Styled

/-! ## Parts of words -/

/-- A character of a plain word. -/
abbrev PlainChar :=
  { c : Char // isSpace c = false ∧ c ≠ '\\' ∧ c ≠ '\x1b' }

/-- The letter that a font is named by. -/
def letter : FontName → Char
  | .bold => 'B'
  | .italic => 'I'
  | .roman => 'R'
  | .previous => 'P'

/-- A part of a word. -/
inductive Item where
  | char (c : PlainChar)
  /-- a font escape, its font named by a letter alone or between brackets -/
  | font (name : FontName) (bracketed : Bool)

namespace Item

/-- What is written for a part of a word. -/
def source : Item → Text
  | char c => [c.1]
  | font name false => ['\\', 'f', letter name]
  | font name true => ['\\', 'f', '[', letter name, ']']

/-- What is left of a part of a word without the font escapes. -/
def text : Item → Text
  | char c => [c.1]
  | font _ _ => []

/-- Whether a part of a word is a font escape. -/
def isFont : Item → Bool
  | char _ => false
  | font _ _ => true

/-- A character, as a part of a word of prose. -/
def plain? : Item → Option Prose.Item
  | char c => some (.plain ⟨c.1, c.2.1⟩ c.2.2.1)
  | font _ _ => none

/-- The parts of a word without the font escapes stand for themselves. By induction on the parts. -/
theorem flatMap_plain? (g : Prose.Item → Text)
    (hg : ∀ c : PlainChar, g (.plain ⟨c.1, c.2.1⟩ c.2.2.1) = [c.1]) (items : List Item) :
    (items.filterMap plain?).flatMap g = items.flatMap text := by
  induction items with
  | nil => rfl
  | cons i items ih =>
    cases i with
    | char c => simp [plain?, text, hg, ih]
    | font => simpa [List.filterMap_cons, plain?, text] using ih

/-- Something is written for each part of a word, for a font escape too. -/
theorem source_ne_nil (i : Item) : i.source ≠ [] := by
  cases i with
  | char c => simp [source]
  | font name bracketed => cases bracketed <;> simp [source]

/-- What is written for a part of a word is ink. -/
theorem isInk_source (i : Item) : i.source.isInk = true := by
  cases i with
  | char c => simp [source, c.2.1]
  | font name bracketed => cases name <;> cases bracketed <;> rfl

end Item

/-- Whether parts of a word end in a font escape. -/
def endsInFont (items : List Item) : Bool :=
  items.getLast?.any Item.isFont

/-- A character in front does not change whether a word ends in a font escape. -/
theorem endsInFont_char (c : PlainChar) (items : List Item) :
    endsInFont (.char c :: items) = endsInFont items := by
  unfold endsInFont
  cases items with
  | nil => rfl
  | cons i items => rw [List.getLast?_cons_cons]

/-- A font escape in front ends the word if it is all of it. -/
theorem endsInFont_font (name : FontName) (bracketed : Bool) (items : List Item) :
    endsInFont (.font name bracketed :: items) = (items.isEmpty || endsInFont items) := by
  unfold endsInFont
  cases items with
  | nil => rfl
  | cons i items =>
    rw [List.getLast?_cons_cons]
    rfl

/-! ## Reading a word -/

/-- The lexemes of a font escape, behind the backslash. -/
def fontLexemes (name : FontName) : Bool → List Lexeme
  | false => [⟨.command, ['f']⟩, ⟨.argument, [letter name]⟩]
  | true => [⟨.command, ['f']⟩, ⟨.openBracket, ['[']⟩, ⟨.argument, [letter name]⟩,
      ⟨.closeBracket, [']']⟩]

/-- A font escape in front of a text is read as its lexemes, and the text behind it as its own. This
holds wherever the escape stands in a word. -/
theorem ofChunk_font (name : FontName) (bracketed : Bool) (u : Text) :
    Lexeme.ofChunk ((Item.font name bracketed).source ++ u) =
      ⟨.backslash, ['\\']⟩ :: fontLexemes name bracketed ++ Lexeme.ofChunk u := by
  cases name <;> cases bracketed <;>
    simp [Item.source, Lexeme.ofChunk, Lexeme.escape, Lexeme.afterCommand, Escape.ofCommand,
      Lexeme.argument, Lexeme.bracketed, letter, fontLexemes]

/-- The argument of a font escape changes the style. -/
theorem isStyling_settle (t : Token) (name : FontName) :
    ∀ i ∈ (ArgumentUse.font t).settle (some [letter name]), i.isStyling = true := by
  cases name <;> simp [ArgumentUse.settle, letter, FontName.ofName?, Instr.isStyling]

/-- A font escape in a word changes the style, shows nothing, and leaves the end of the font above
the word.

**Proof sketch.** In either form the backslash, the command and the name are taken one after the
other by the frames of the escape. What they bring are records and what the name does to the style.
-/
theorem exists_feedAll_font (name : FontName) (bracketed isolating : Bool) (below : List Frame)
    (number column : Int) : ∃ is, IsStyledWord [] is ∧
      feedAll isolating (.unit :: below) (Token.place false number column
        (⟨.backslash, ['\\']⟩ :: fontLexemes name bracketed)) =
        ⟨is, .fontEnd :: .unit :: below⟩ := by
  cases bracketed with
  | false =>
    simp only [fontLexemes, Token.place, feedAll, Prose.feed_backslash, Prose.feed_command,
      Step.command, Escape.ofCommand, List.cons_append, List.nil_append, Prose.feed_argument]
    refine ⟨_, .of_silent fun i hi => ?_, rfl⟩
    simp only [List.append_nil, List.mem_cons] at hi
    rcases hi with rfl | rfl | rfl | hi
    · exact Or.inl rfl
    · exact Or.inl rfl
    · exact Or.inl rfl
    · exact Or.inr (isStyling_settle _ name i hi)
  | true =>
    simp only [fontLexemes, Token.place, feedAll, Prose.feed_backslash, Prose.feed_command,
      Step.command, Escape.ofCommand, List.cons_append, List.nil_append, Prose.feed_openBracket,
      Prose.feed_opened, if_true, Prose.feed_closeBracket]
    refine ⟨_, .of_silent fun i hi => ?_, rfl⟩
    simp only [List.mem_cons, List.mem_append, List.not_mem_nil, or_false] at hi
    rcases hi with rfl | rfl | rfl | rfl | hi | rfl
    · exact Or.inl rfl
    · exact Or.inl rfl
    · exact Or.inl rfl
    · exact Or.inl rfl
    · exact Or.inr (isStyling_settle _ name i hi)
    · exact Or.inl rfl

/-- A font escape behind plain text and before the rest of a chunk.

**Proof sketch.** The lexemes of the chunk are those of the plain text, of the escape and of the
rest, which are read one after the other. The end of the font is passed over by whatever follows it,
and left if nothing does. -/
theorem readsStyled_font (hp : p.isInk = true) (hp' : '\\' ∉ p) (name : FontName)
    (bracketed : Bool) (h : ReadsStyled u v ends) :
    ReadsStyled (p ++ ((Item.font name bracketed).source ++ u)) (p ++ v)
      (u.isEmpty || ends) := by
  intro isolating below number column
  have hescape : ∃ e, (Item.font name bracketed).source ++ u = '\\' :: e := by
    cases bracketed with
    | false => exact ⟨_, rfl⟩
    | true => exact ⟨_, rfl⟩
  have hchunk : Lexeme.ofChunk (p ++ ((Item.font name bracketed).source ++ u)) =
      Lexeme.ofChunk p ++ ((⟨.backslash, ['\\']⟩ :: fontLexemes name bracketed) ++
        Lexeme.ofChunk u) := by
    obtain ⟨e, he⟩ := hescape
    rw [he, Lexeme.ofChunk_append_escape hp', ← he, ofChunk_font]
  obtain ⟨column', hplace⟩ := Stage.place_append false number column (Lexeme.ofChunk p)
    ((⟨.backslash, ['\\']⟩ :: fontLexemes name bracketed) ++ Lexeme.ofChunk u)
  obtain ⟨column'', hplace'⟩ := Stage.place_append false number column'
    (⟨.backslash, ['\\']⟩ :: fontLexemes name bracketed) (Lexeme.ofChunk u)
  obtain ⟨is, his, hread⟩ := reads_of_plain hp hp' isolating below number column
  obtain ⟨js, hjs, hfont⟩ :=
    exists_feedAll_font name bracketed isolating below number column'
  obtain ⟨ks, hks, hrest⟩ := h isolating below number column''
  rw [Bool.false_and] at hplace hplace'
  rw [hchunk, hplace, hplace', feedAll_append, hread]
  simp only
  rw [feedAll_append, hfont]
  simp only
  refine ⟨is ++ (js ++ ks), his.isStyledWord.append (hjs.append hks), ?_⟩
  cases u with
  | nil =>
    -- nothing is behind the escape, so its space is still to come
    have hks' : ks = [] := by
      simpa [Lexeme.ofChunk, Token.place, feedAll] using (congrArg Step.out hrest).symm
    simp [Lexeme.ofChunk, Token.place, Frame.fontEnds, hks']
  | cons c u =>
    obtain ⟨x, xs, hlexemes, -⟩ := Lexeme.ofChunk_eq_cons c u
    rw [hlexemes, Token.place] at hrest ⊢
    -- the next token is of the same chunk, so the escape adds no space
    have hends : ∀ ts : List Token, feedAll isolating (.fontEnd :: .unit :: below)
        (⟨x.kind, x.value, false, number, column''⟩ :: ts) =
          feedAll isolating (.unit :: below) (⟨x.kind, x.value, false, number, column''⟩ :: ts) :=
      fun _ => feedAll_fontEnds isolating true (.unit :: below) rfl
    rw [hends, hrest]
    rfl

/-- Parts of a word behind plain text.

**Proof sketch.** Induction on the parts. A character belongs to the plain text before it, with
which it forms a token; a font escape ends the plain text. -/
theorem readsStyled_items (items : List Item) (hp : p.isInk = true) (hp' : '\\' ∉ p) :
    ReadsStyled (p ++ items.flatMap Item.source) (p ++ items.flatMap Item.text)
      (endsInFont items) := by
  induction items generalizing p with
  | nil =>
    simp only [List.flatMap_nil, List.append_nil]
    exact (reads_of_plain hp hp').readsStyled
  | cons i items ih =>
    rw [List.flatMap_cons, List.flatMap_cons]
    cases i with
    | char c =>
      have hc : (p ++ [c.1]).isInk = true := by simp [hp, c.2.1]
      have hc' : '\\' ∉ p ++ [c.1] := by simp [hp', Ne.symm c.2.2.1]
      have hread := ih hc hc'
      rw [endsInFont_char]
      simpa only [Item.source, Item.text, List.append_assoc] using hread
    | font name bracketed =>
      have hrest := ih (p := []) rfl List.not_mem_nil
      have hempty : (items.flatMap Item.source).isEmpty = items.isEmpty := by
        cases items with
        | nil => rfl
        | cons i items => simp [i.source_ne_nil]
      have hread := readsStyled_font hp hp' name bracketed hrest
      rw [List.nil_append, hempty] at hread
      rw [endsInFont_font]
      exact hread

/-! ## Words -/

/-- A word: one character at least, with font escapes anywhere. -/
structure Word where
  items : List Item
  text_ne_nil : items.flatMap Item.text ≠ []

namespace Word

/-- What is written for a word. -/
def source (w : Word) : Text :=
  w.items.flatMap Item.source

/-- The word without the font escapes. -/
def text (w : Word) : Text :=
  w.items.flatMap Item.text

/-- **A word is read as what is left of it without the font escapes.** -/
theorem readsStyled (w : Word) : ReadsStyled w.source w.text (endsInFont w.items) := by
  have h := readsStyled_items w.items (p := []) rfl List.not_mem_nil
  rwa [List.nil_append, List.nil_append] at h

/-- A word is written with ink, whatever escapes are in it. -/
theorem isInk_source (w : Word) : w.source.isInk = true := by
  unfold source
  induction w.items with
  | nil => rfl
  | cons i items ih => rw [List.flatMap_cons, Text.isInk_append, i.isInk_source, ih, Bool.and_self]

/-- Something is written for a word, since it has text. -/
theorem source_ne_nil (w : Word) : w.source ≠ [] := by
  have hne : w.items ≠ [] := by
    intro hnil
    exact w.text_ne_nil (by rw [hnil, List.flatMap_nil])
  obtain ⟨i, items, heq⟩ := List.exists_cons_of_ne_nil hne
  unfold source
  rw [heq, List.flatMap_cons]
  exact List.append_ne_nil_of_left_ne_nil i.source_ne_nil _

/-- A word begins with an escape, or as it does without the escapes. -/
theorem head?_source (w : Word) : w.source.head? = some '\\' ∨ w.source.head? = w.text.head? := by
  unfold source text
  cases w.items with
  | nil => exact Or.inr rfl
  | cons i items =>
    cases i with
    | char c => exact Or.inr rfl
    | font name bracketed => cases bracketed <;> exact Or.inl rfl

/-- No parts of a word begin with the escape of a comment. A font escape has a command of its own,
and other parts are no backslash. -/
theorem not_isPrefix_items (items : List Item) {command : Char} (h : command ∈ ['"', '#']) :
    ¬ ['\\', command] <+: items.flatMap Item.source := by
  have hcommand : command ≠ 'f' := by
    rintro rfl
    exact absurd h (by decide)
  cases items with
  | nil => simp
  | cons i items =>
    rw [List.flatMap_cons]
    cases i with
    | char c =>
      rw [Item.source, List.singleton_append, List.cons_prefix_cons]
      exact fun h => c.2.2.1 h.1.symm
    | font name bracketed =>
      cases bracketed <;>
        simp [Item.source, List.cons_prefix_cons, hcommand]

/-- A word at the start of a line makes the line no comment.

**Proof sketch.** Comments begin with a point or with one of a few leaders. Font escapes and plain
characters make none of these at the start of a word. -/
theorem isComment_source (w : Word) (h : w.source.head? ≠ some '.') :
    isComment w.source = false := by
  have hapostrophe : ¬ ['\'', '\\', '"'] <+: w.source := by
    unfold source
    cases w.items with
    | nil => simp
    | cons i items =>
      rw [List.flatMap_cons]
      cases i with
      | char c =>
        rw [Item.source, List.singleton_append, List.cons_prefix_cons]
        exact fun h => not_isPrefix_items items (by decide) h.2
      | font name bracketed => cases bracketed <;> simp [Item.source, List.cons_prefix_cons]
  have hpoint : ∀ u, ¬ '.' :: u <+: w.source := by
    rintro u ⟨rest, heq⟩
    rw [← heq] at h
    exact h rfl
  refine Prose.isComment_eq_false ?_ ?_
  · intro heq
    exact hpoint [] (heq ▸ List.prefix_refl _)
  · intro leader hleader
    simp only [commentLeaders, List.mem_cons, List.not_mem_nil, or_false] at hleader
    rcases hleader with rfl | rfl | rfl | rfl
    · exact not_isPrefix_items w.items (by decide)
    · exact hpoint _
    · exact hapostrophe
    · exact not_isPrefix_items w.items (by decide)

/-- The word without its font escapes, as a word of prose. -/
def plain (w : Word) : Prose.Word where
  items := w.items.filterMap Item.plain?
  ne_nil := by
    intro hnil
    rw [List.filterMap_eq_nil_iff] at hnil
    refine w.text_ne_nil (List.flatMap_eq_nil_iff.mpr fun i hi => ?_)
    cases i with
    | char c => exact absurd (hnil _ hi) (by simp [Item.plain?])
    | font => rfl

/-- The plain word of a word is written as the text of the word. -/
theorem source_plain (w : Word) : w.plain.source = w.text :=
  Item.flatMap_plain? Prose.Item.source (fun _ => rfl) w.items

/-- The plain word of a word stands for the text of the word, since no escape is left in it. -/
theorem meaning_plain (w : Word) : w.plain.meaning = w.text :=
  Item.flatMap_plain? Prose.Item.meaning (fun _ => rfl) w.items

end Word

/-! ## Lines -/

/-- A line of words with blanks between them, which does not begin with a point. -/
structure Line where
  lead : Prose.Gap
  first : Word
  rest : List (Prose.Separator × Word)
  trail : Prose.Gap
  no_point : (lead.1 ++ first.text).head? ≠ some '.'

/-- What is written behind the first word of a line. -/
def tail (rest : List (Prose.Separator × Word)) (trail : Prose.Gap) : Text :=
  (rest.flatMap fun p => p.1.1.1 ++ p.2.source) ++ trail.1

/-- Behind the first word, a line goes on with a gap and the next word. -/
theorem tail_cons (p : Prose.Separator × Word) (rest : List (Prose.Separator × Word))
    (trail : Prose.Gap) :
    tail (p :: rest) trail = p.1.1.1 ++ (p.2.source ++ tail rest trail) := by
  simp [tail]

/-- The words of a line, the first of which is given, each with a mark where a font escape ends it
at the end of the line. -/
def marksFrom (w : Word) : List (Prose.Separator × Word) → Prose.Gap → List (Text × Bool)
  | [], trail => [(w.text, endsInFont w.items && trail.1.isEmpty)]
  | p :: rest, trail => (w.text, false) :: marksFrom p.2 rest trail

namespace Line

/-- What is written for a line. -/
def source (l : Line) : Text :=
  l.lead.1 ++ (l.first.source ++ tail l.rest l.trail)

/-- The words of a line, each with a mark where a font escape ends it at the end of the line. -/
def marks (l : Line) : List (Text × Bool) :=
  marksFrom l.first l.rest l.trail

/-- The line without its font escapes, as a line of prose. -/
def plain (l : Line) : Prose.Line where
  lead := l.lead
  first := l.first.plain
  rest := l.rest.map fun p => (p.1, p.2.plain)
  trail := l.trail
  no_point := by
    rw [Word.source_plain]
    exact l.no_point

/-- The words of a line without their marks are the texts of its words. -/
theorem map_fst_marksFrom (w : Word) (rest : List (Prose.Separator × Word)) (trail : Prose.Gap) :
    (marksFrom w rest trail).map Prod.fst = w.text :: rest.map fun p => p.2.text := by
  induction rest generalizing w with
  | nil => rfl
  | cons p rest ih => simp [marksFrom, ih]

/-- The words of a line are those that the line without the font escapes has. -/
theorem meanings_plain (l : Line) : l.plain.meanings = l.marks.map Prod.fst := by
  rw [marks, map_fst_marksFrom]
  simp [Prose.Line.meanings, Prose.Line.words, plain, Word.meaning_plain]

/-! ### Chunks -/

/-- The character at the start of a gap, if there is one, is a blank. -/
theorem isSpace_of_mem_head?_gap (g : Prose.Gap) : ∀ d ∈ g.1.head?, isSpace d = true :=
  fun d hd => Text.isBlank_iff.mp g.2.1 d (List.mem_of_mem_head? hd)

/-- What is written behind a word begins with a blank. -/
theorem isSpace_of_mem_head?_tail (rest : List (Prose.Separator × Word)) (trail : Prose.Gap) :
    ∀ d ∈ (tail rest trail).head?, isSpace d = true := by
  cases rest with
  | nil => exact isSpace_of_mem_head?_gap trail
  | cons p rest =>
    rw [tail_cons, List.head?_append_of_ne_nil _ p.1.2]
    exact isSpace_of_mem_head?_gap p.1.1

/-- A word begins with ink. -/
theorem isSpace_of_mem_head?_word (w : Word) (u : Text) :
    ∀ d ∈ (w.source ++ u).head?, isSpace d = false := by
  intro d hd
  rw [List.head?_append_of_ne_nil _ w.source_ne_nil] at hd
  exact Text.isInk_iff.mp w.isInk_source d (List.mem_of_mem_head? hd)

/-- Blanks before ink, or at the end of a line. They are chunks of their own, and add no word. -/
theorem readsStyledRow_blank {b rest : Text} {ws : List (Text × Bool)} (hb : b.isBlank = true)
    (hrest : ∀ d ∈ rest.head?, isSpace d = false)
    (h : ReadsStyledRow (rest.splitBy sameChunk) ws) :
    ReadsStyledRow ((b ++ rest).splitBy sameChunk) ws := by
  have hblanks : ∀ bs : List Text, (∀ m ∈ bs, m ≠ [] ∧ Text.isBlank m = true) →
      ReadsStyledRow (bs ++ rest.splitBy sameChunk) ws := by
    intro bs hbs
    induction bs with
    | nil => exact h
    | cons m bs ih =>
      obtain ⟨⟨hne, hm⟩, hbs⟩ := List.forall_mem_cons.mp hbs
      exact .blank hne hm (ih hbs)
  rw [splitBy_blank_append hb hrest]
  exact hblanks _ fun m hm => ⟨List.ne_nil_of_mem_splitBy hm, isBlank_of_mem_splitBy hb hm⟩

/-- A word before a blank, or at the end of a line. It ends in a font escape with nothing behind it
just where the rest is empty. -/
theorem readsStyledRow_word (w : Word) {rest : Text} {ws : List (Text × Bool)}
    (hrest : ∀ d ∈ rest.head?, isSpace d = true)
    (h : ReadsStyledRow (rest.splitBy sameChunk) ws) :
    ReadsStyledRow ((w.source ++ rest).splitBy sameChunk)
      ((w.text, endsInFont w.items && rest.isEmpty) :: ws) := by
  have hchain := isChain_not_isInk_splitBy (w.source ++ rest)
  have hempty : (rest.splitBy sameChunk).isEmpty = rest.isEmpty := by
    cases rest with
    | nil => rfl
    | cons c rest => simp [List.splitBy_eq_nil]
  rw [splitBy_ink_append w.source_ne_nil w.isInk_source hrest] at hchain ⊢
  rw [← hempty]
  refine .word w.source_ne_nil w.isInk_source w.readsStyled ?_ h
  intro m hm
  exact (List.isChain_cons.mp hchain).1 m hm w.isInk_source

/-- The chunks of a line behind the blanks at its start are read as its words, with a mark at the
last one if the line ends in a font escape. -/
theorem readsStyledRow_marksFrom (w : Word) (rest : List (Prose.Separator × Word))
    (trail : Prose.Gap) :
    ReadsStyledRow ((w.source ++ tail rest trail).splitBy sameChunk)
      (marksFrom w rest trail) := by
  induction rest generalizing w with
  | nil =>
    have hnil : ReadsStyledRow ((trail.1 ++ []).splitBy sameChunk) [] :=
      readsStyledRow_blank trail.2.1 (by simp) .nil
    rw [List.append_nil] at hnil
    exact readsStyledRow_word w (isSpace_of_mem_head?_gap trail) hnil
  | cons p rest ih =>
    have hrest := readsStyledRow_blank p.1.1.2.1 (isSpace_of_mem_head?_word p.2 _) (ih p.2)
    have hword := readsStyledRow_word w
      (tail_cons p rest trail ▸ isSpace_of_mem_head?_tail (p :: rest) trail) hrest
    have hne : (p.1.1.1 ++ (p.2.source ++ tail rest trail)).isEmpty = false := by
      simp [p.1.2]
    rw [hne, Bool.and_false] at hword
    rw [tail_cons]
    exact hword

/-- **The chunks of a line.** They are its words, each read as what is left of it without the font
escapes, and the blanks between them. -/
theorem readsStyledRow_splitBy (l : Line) :
    ReadsStyledRow (l.source.splitBy sameChunk) l.marks :=
  readsStyledRow_blank l.lead.2.1 (isSpace_of_mem_head?_word l.first _)
    (readsStyledRow_marksFrom l.first l.rest l.trail)

/-! ### Programs -/

/-- No line of words with font escapes has a point at its start, so none is taken for the line of a
macro. -/
theorem head?_source (l : Line) : l.source.head? ≠ some '.' := by
  have hpoint := l.no_point
  unfold source
  cases hlead : l.lead.1 with
  | cons c u =>
    rw [hlead] at hpoint
    exact hpoint
  | nil =>
    rw [hlead, List.nil_append] at hpoint
    rw [List.nil_append, List.head?_append_of_ne_nil _ l.first.source_ne_nil]
    rcases l.first.head?_source with h | h
    · simp [h]
    · rwa [h]

/-- A line is not blank. -/
theorem isBlank_source (l : Line) : l.source.isBlank = false := by
  simp [source, Text.isBlank_eq_false_of_isInk l.first.isInk_source l.first.source_ne_nil]

/-- No line ends within a line. Words are ink, and gaps have no line end by themselves. -/
theorem isLineEnd_of_mem (l : Line) : ∀ c ∈ l.source, isLineEnd c = false := by
  intro c hc
  simp only [source, tail, List.mem_append, List.mem_flatMap] at hc
  rcases hc with hc | hc | ⟨p, -, hc | hc⟩ | hc
  · exact l.lead.2.2 c hc
  · exact Text.isLineEnd_of_isInk l.first.isInk_source c hc
  · exact p.1.1.2.2 c hc
  · exact Text.isLineEnd_of_isInk p.2.isInk_source c hc
  · exact l.trail.2.2 c hc

/-- The first chunk of a line is no comment. -/
theorem isComment_of_splitBy (l : Line) {m : Text} {ms : List Text}
    (h : l.source.splitBy sameChunk = m :: ms) : m.head? ≠ some '.' ∧ isComment m = false :=
  Prose.isComment_of_splitBy_append l.lead.2.1 l.first.source_ne_nil l.first.isInk_source
    (isSpace_of_mem_head?_tail l.rest l.trail) l.head?_source l.first.isComment_source h

/-- **The program of a line.** The line is cut into the chunks of its words and of the gaps, and
these are read one by one. -/
theorem exists_program (l : Line) (isolating : Bool) (number : Nat) :
    (∃ is, program isolating (Token.ofLine number l.source) = .beginLine :: is ∧
        IsStyledText l.marks is) ∧
      ∀ f ∈ (feedAll isolating [] (Token.ofLine number l.source)).frames, f.EndsAtLine := by
  have hrow := l.readsStyledRow_splitBy
  cases hsplit : l.source.splitBy sameChunk with
  | nil =>
    rw [List.splitBy_eq_nil] at hsplit
    exact Bool.noConfusion (hsplit ▸ l.isBlank_source)
  | cons m ms =>
    obtain ⟨hpoint, hcomment⟩ := l.isComment_of_splitBy hsplit
    rw [hsplit] at hrow
    rw [Token.ofLine_of_splitBy l.isBlank_source hsplit hcomment]
    exact hrow.program_eq hpoint number 1 m.length

end Line

/-- What is written for lines, each with a line feed at its end. -/
def source (ls : List Line) : Text :=
  (ls.map Line.source).flatMap fun l => l ++ ['\n']

/-- The words of lines, each with a mark where a font escape ends it at the end of its line. -/
def marks (ls : List Line) : List (Text × Bool) :=
  ls.flatMap Line.marks

/-- The words of lines are those that the lines without the font escapes have. -/
theorem flatMap_meanings_plain (ls : List Line) :
    (ls.map Line.plain).flatMap Prose.Line.meanings = (marks ls).map Prod.fst := by
  rw [List.flatMap_map, marks, List.map_flatMap]
  exact List.flatMap_congr fun l _ => l.meanings_plain

/-- Every word has a character. By induction on the words of a line. -/
theorem ne_nil_of_mem_marks (ls : List Line) : ∀ w ∈ marks ls, w.1 ≠ [] := by
  have hfrom : ∀ (rest : List (Prose.Separator × Word)) (w : Word) (trail : Prose.Gap),
      ∀ v ∈ marksFrom w rest trail, v.1 ≠ [] := by
    intro rest
    induction rest with
    | nil =>
      intro w trail v hv
      obtain rfl := List.mem_singleton.mp hv
      exact w.text_ne_nil
    | cons p rest ih =>
      intro w trail v hv
      rcases List.mem_cons.mp hv with rfl | hv
      · exact w.text_ne_nil
      · exact ih p.2 trail v hv
  intro w hw
  obtain ⟨l, -, hw⟩ := List.mem_flatMap.mp hw
  exact hfrom l.rest l.first l.trail w hw

/-! ### No escape character -/

/-- No escape character is written for a part of a word. -/
theorem Item.escape_not_mem (i : Item) : '\x1b' ∉ i.source := by
  cases i with
  | char c => simpa [source] using Ne.symm c.2.2.2
  | font name bracketed => cases name <;> cases bracketed <;> decide

/-- No escape character is written for a word. -/
theorem Word.escape_not_mem (w : Word) : '\x1b' ∉ w.source := by
  intro hmem
  obtain ⟨i, -, hmem⟩ := List.mem_flatMap.mp hmem
  exact i.escape_not_mem hmem

/-- No escape character is written for a line of words, neither for its words nor for its gaps. -/
theorem Line.escape_not_mem (l : Line) : '\x1b' ∉ l.source := by
  have hgap : ∀ g : Prose.Gap, '\x1b' ∉ g.1 := fun g => Text.escape_not_mem_of_isBlank g.2.1
  simp only [source, tail, List.mem_append, List.mem_flatMap, not_or, not_exists, not_and]
  exact ⟨hgap l.lead, l.first.escape_not_mem,
    fun p _ => ⟨hgap p.1.1, p.2.escape_not_mem⟩, hgap l.trail⟩

/-- No control sequence is written for lines. -/
theorem escape_not_mem_source (ls : List Line) : '\x1b' ∉ source ls := by
  intro hmem
  obtain ⟨line, hline, hmem⟩ := List.mem_flatMap.mp hmem
  obtain ⟨l, -, rfl⟩ := List.mem_map.mp hline
  rcases List.mem_append.mp hmem with hmem | hmem
  · exact l.escape_not_mem hmem
  · exact absurd hmem (by decide)

/-! ### Programs of lines -/

/-- The program of the lines from one with a given number on. By induction on the lines. -/
theorem exists_program_ofLines (isolating : Bool) (ls : List Line) (number : Nat) :
    ∃ is, IsStyledLines (marks ls) is ∧
      program isolating (Token.ofLines number (ls.map Line.source)) = is := by
  induction ls generalizing number with
  | nil => exact ⟨[], .nil, rfl⟩
  | cons l ls ih =>
    obtain ⟨is, his, hmore⟩ := ih (number + 1)
    obtain ⟨⟨js, hjs, htext⟩, hends⟩ := l.exists_program isolating number
    refine ⟨.beginLine :: js ++ is, .line htext his, ?_⟩
    rw [List.map_cons, program_ofLines _ _ _ hends, hjs, hmore]

/-- **The program of lines of words with font escapes.** The lines of the source are those that it
was written from. -/
theorem exists_program (isolating : Bool) (ls : List Line) :
    ∃ is, IsStyledLines (marks ls) is ∧
      program isolating (Token.ofSource (source ls)) = is := by
  have hends : ∀ line ∈ ls.map Line.source, ∀ c ∈ line, isLineEnd c = false := by
    intro line hline
    obtain ⟨l, -, rfl⟩ := List.mem_map.mp hline
    exact l.isLineEnd_of_mem
  have hlines : (source ls).splitLines = ls.map Line.source := by
    have h := Text.splitLines_flatMap_append hends []
    simpa [source, Text.splitLines] using h
  rw [Token.ofSource, hlines]
  exact exists_program_ofLines isolating ls 1

end Styled

end Manpage

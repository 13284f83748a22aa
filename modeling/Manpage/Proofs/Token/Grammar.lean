import Manpage.Proofs.Token.Lexemes

/-!
# The grammar of a chunk

A chunk that begins with ink is a sentence of words, quotes and escapes. The grammar of sentences
says what may stand where, without saying how a chunk is read: which commands have an argument, the
forms of arguments, and what only the end of the chunk can cut short. No chunk has two sentences,
and its lexemes are the one that it has.

Each function that reads a part of a chunk has an equation of its own here: it has a given result
just where that result spells out the text, and the lexemes of it are in their part of the grammar.

## Main definitions

* `Manpage.Lexeme.IsName` — a name up to a closing bracket.
* `Manpage.Lexeme.IsArgument` — the argument of a font, colour, size or string.
* `Manpage.Lexeme.IsOperand` — what follows a command.
* `Manpage.Lexeme.IsEscape` — a backslash and what belongs to it.
* `Manpage.Lexeme.IsSentence` — words, quotes and escapes.

## Main results

* `Manpage.Lexeme.ofChunk_eq_iff` — the lexemes of a chunk are its only sentence.
* `Manpage.Token.ofChunk_eq_iff_isSentence` — the tokens of a chunk, with their places.
-/

namespace Manpage

namespace Lexeme

variable {atEnd : Prop} {xs ys : List Lexeme} {t rest name : Text} {c : Char}

/-! ## The grammar -/

/-- The lexeme of an argument. -/
def ofArgument (t : Text) : Lexeme :=
  ⟨.argument, t⟩

/-- A name and the bracket that closes it, which is missing only at the end of the chunk. -/
inductive IsName (atEnd : Prop) : List Lexeme → Prop
  | closed (name : Text) (h : ']' ∉ name) : IsName atEnd [ofArgument name, ⟨.closeBracket, [']']⟩]
  | unclosed (name : Text) (h : ']' ∉ name) (hend : atEnd) : IsName atEnd [ofArgument name]

/-- The argument of a command that has one, in one of four forms. -/
inductive IsArgument (atEnd : Prop) : List Lexeme → Prop
  | missing (hend : atEnd) : IsArgument atEnd []
  /-- two characters after a parenthesis, fewer at the end of the chunk -/
  | paren (name : Text) (h : name.length = 2 ∨ name.length < 2 ∧ atEnd) :
    IsArgument atEnd [⟨.openParen, ['(']⟩, ofArgument name]
  /-- a name between brackets -/
  | bracket {xs : List Lexeme} (h : IsName atEnd xs) :
    IsArgument atEnd (⟨.openBracket, ['[']⟩ :: xs)
  /-- a sign and one character, which is missing only at the end of the chunk -/
  | signed {sign : Char} (hsign : sign ∈ ['+', '-']) (digits : Text)
    (h : digits.length = 1 ∨ digits = [] ∧ atEnd) : IsArgument atEnd [ofArgument (sign :: digits)]
  /-- any other character -/
  | char {c : Char} (h : c ∉ ['(', '[', '+', '-']) : IsArgument atEnd [ofArgument [c]]

/-- What follows a command. -/
inductive IsOperand (atEnd : Prop) : Char → List Lexeme → Prop
  | argument {c : Char} (hc : c ∈ ['f', 'm', 's', '*']) {xs : List Lexeme}
    (h : IsArgument atEnd xs) : IsOperand atEnd c xs
  /-- a character name of two characters, of one at the end of the chunk -/
  | mnemonic (name : Text) (h : name.length = 2 ∨ name.length = 1 ∧ atEnd) :
    IsOperand atEnd '(' [ofArgument name]
  | noMnemonic (hend : atEnd) : IsOperand atEnd '(' []
  /-- a character name up to a bracket, also at the end of the chunk -/
  | bracketed {xs : List Lexeme} (h : IsName atEnd xs) : IsOperand atEnd '[' xs
  | other {c : Char} (hc : c ∉ ['f', 'm', 's', '*', '(', '[']) : IsOperand atEnd c []

/-- A backslash with its command and what follows it. It stands alone only at the end of the
chunk. -/
inductive IsEscape (atEnd : Prop) : List Lexeme → Prop
  | lone (hend : atEnd) : IsEscape atEnd [⟨.backslash, ['\\']⟩]
  | command {c : Char} {xs : List Lexeme} (h : IsOperand atEnd c xs) :
    IsEscape atEnd (⟨.backslash, ['\\']⟩ :: ⟨.command, [c]⟩ :: xs)

/-- Words, quotes and escapes one after another. No two words are neighbours. -/
inductive IsSentence : List Lexeme → Prop
  | nil : IsSentence []
  | word {w : Text} {xs : List Lexeme} (hne : w ≠ []) (hw : ∀ c ∈ w, c ≠ '\\' ∧ c ≠ '"')
    (hnext : ∀ x ∈ xs.head?, x.kind ≠ .word) (h : IsSentence xs) : IsSentence (⟨.word, w⟩ :: xs)
  | quote {xs : List Lexeme} (h : IsSentence xs) : IsSentence (⟨.quote, ['"']⟩ :: xs)
  | escape {xs ys : List Lexeme} (hescape : IsEscape (ys = []) xs) (h : IsSentence ys) :
    IsSentence (xs ++ ys)

/-! ## Reading arguments -/

/-- **A name** is read up to the first closing bracket.

**Proof sketch.** The name is what comes before the first closing bracket; if there is none it is
all that is left. In the other direction, a name holds no closing bracket, so that reading stops
behind it. -/
theorem bracketed_eq_iff :
    bracketed t = (xs, rest) ↔ spell xs ++ rest = t ∧ IsName (rest = []) xs := by
  constructor
  · intro h
    have hspell := spell_bracketed t
    rw [h] at hspell
    refine ⟨hspell, ?_⟩
    unfold bracketed at h
    split at h
    · rename_i hdrop
      obtain ⟨rfl, rfl⟩ := Prod.mk.inj h
      -- nothing is left, so there is no bracket in the text
      refine .unclosed t (fun hmem => ?_) rfl
      simpa using List.dropWhile_eq_nil_iff.mp hdrop ']' hmem
    · rename_i close more hdrop
      obtain ⟨rfl, rfl⟩ := Prod.mk.inj h
      -- the first character behind the name is the bracket
      have hhead := List.head?_dropWhile_not (· != ']') t
      rw [hdrop] at hhead
      obtain rfl : close = ']' := by simpa using hhead
      exact .closed _ fun hmem => by simpa using List.mem_takeWhile_imp hmem
  · rintro ⟨rfl, h⟩
    have hpass : ∀ name : Text, ']' ∉ name → ∀ d ∈ name, (d != ']') = true := by
      intro name hname d hd
      rw [bne_iff_ne]
      exact ne_of_mem_of_not_mem hd hname
    cases h with
    | closed name h =>
      have hdrop : (name ++ ']' :: rest).dropWhile (· != ']') = ']' :: rest := by
        rw [List.dropWhile_append_of_pos (hpass name h), List.dropWhile_cons_of_neg (by simp)]
      have htake : (name ++ ']' :: rest).takeWhile (· != ']') = name := by
        rw [List.takeWhile_append_of_pos (hpass name h), List.takeWhile_cons_of_neg (by simp),
          List.append_nil]
      simp [bracketed, ofArgument, hdrop, htake]
    | unclosed name h hend =>
      subst hend
      have hdrop : name.dropWhile (· != ']') = [] := List.dropWhile_eq_nil_iff.mpr (hpass name h)
      simp [bracketed, ofArgument, hdrop]

/-- As many characters as are wanted, or all that there are. In the second case nothing is left
behind them. -/
theorem length_take_cases (n : Nat) (t : Text) :
    (t.take n).length = n ∨ (t.take n).length < n ∧ t.drop n = [] := by
  rcases Nat.lt_or_ge t.length n with h | h
  · refine Or.inr ⟨?_, List.drop_eq_nil_of_le h.le⟩
    rw [List.length_take]
    omega
  · left
    rw [List.length_take]
    omega

/-- What was taken and what is left are determined by how much was wanted. -/
theorem take_drop_append {n : Nat} (h : name.length = n ∨ name.length < n ∧ rest = []) :
    (name ++ rest).take n = name ∧ (name ++ rest).drop n = rest := by
  rcases h with rfl | ⟨hlt, rfl⟩
  · exact ⟨List.take_left, List.drop_left⟩
  · rw [List.append_nil]
    exact ⟨List.take_of_length_le hlt.le, List.drop_eq_nil_of_le hlt.le⟩

/-- **An argument** is read in the form that its first character begins.

**Proof sketch.** By the first character: a parenthesis, a bracket, a sign, or any other, each of
which allows one form of argument only. -/
theorem argument_eq_iff :
    argument t = (xs, rest) ↔ spell xs ++ rest = t ∧ IsArgument (rest = []) xs := by
  constructor
  · intro h
    have hspell := spell_argument t
    rw [h] at hspell
    refine ⟨hspell, ?_⟩
    cases t with
    | nil =>
      obtain ⟨rfl, rfl⟩ := Prod.mk.inj h
      exact .missing rfl
    | cons c t =>
      simp only [argument] at h
      split at h
      · rename_i hc
        obtain rfl : c = '(' := by simpa using hc
        obtain ⟨rfl, rfl⟩ := Prod.mk.inj h
        exact .paren _ (length_take_cases 2 t)
      · split at h
        · rename_i hc
          obtain rfl : c = '[' := by simpa using hc
          obtain ⟨rfl, rfl⟩ := Prod.mk.inj h
          exact .bracket (bracketed_eq_iff.mp rfl).2
        · split at h
          · rename_i hc
            obtain ⟨rfl, rfl⟩ := Prod.mk.inj h
            refine .signed (by simpa using hc) _ ?_
            simpa [Nat.lt_one_iff] using length_take_cases 1 t
          · rename_i hparen hbracket hsign
            obtain ⟨rfl, rfl⟩ := Prod.mk.inj h
            -- neither a parenthesis nor a bracket nor a sign
            refine .char ?_
            simp_all
  · rintro ⟨rfl, h⟩
    cases h with
    | missing hend =>
      subst hend
      rfl
    | paren name h =>
      obtain ⟨htake, hdrop⟩ := take_drop_append h
      simp [argument, ofArgument, htake, hdrop]
    | bracket h =>
      have hname := bracketed_eq_iff.mpr ⟨rfl, h⟩
      simp [argument, hname]
    | @signed sign hsign digits h =>
      have hlength : digits.length = 1 ∨ digits.length < 1 ∧ rest = [] := by
        simpa [Nat.lt_one_iff] using h
      obtain ⟨htake, hdrop⟩ := take_drop_append hlength
      have hsign' : sign = '+' ∨ sign = '-' := by simpa using hsign
      rcases hsign' with rfl | rfl <;> simp [argument, ofArgument, htake, hdrop]
    | @char c h =>
      simp only [List.mem_cons, List.not_mem_nil, or_false, not_or] at h
      simp [argument, ofArgument, h]

/-- **A character name** of two characters. It is shorter only at the end of the text, and missing
only if nothing is left. -/
theorem mnemonic_eq_iff :
    mnemonic t = (xs, rest) ↔ spell xs ++ rest = t ∧ IsOperand (rest = []) '(' xs := by
  constructor
  · intro h
    have hspell := spell_mnemonic t
    rw [h] at hspell
    refine ⟨hspell, ?_⟩
    cases t with
    | nil =>
      obtain ⟨rfl, rfl⟩ := Prod.mk.inj h
      exact .noMnemonic rfl
    | cons c t =>
      obtain ⟨rfl, rfl⟩ := Prod.mk.inj h
      -- one character is there, so a short mnemonic has one and no more
      refine .mnemonic _ ((length_take_cases 2 (c :: t)).imp_right fun hshort => ?_)
      refine ⟨?_, hshort.2⟩
      have hlt := hshort.1
      simp only [List.take_succ_cons, List.length_cons] at hlt ⊢
      omega
  · rintro ⟨rfl, h⟩
    cases h with
    | argument hc => exact absurd hc (by decide)
    | mnemonic name h =>
      have hlength : name.length = 2 ∨ name.length < 2 ∧ rest = [] :=
        h.imp_right fun hshort => ⟨by omega, hshort.2⟩
      obtain ⟨htake, hdrop⟩ := take_drop_append hlength
      obtain ⟨c, more, rfl⟩ : ∃ c more, name = c :: more := by
        cases name with
        | nil => simp at h
        | cons c more => exact ⟨c, more, rfl⟩
      rw [List.cons_append] at htake hdrop
      simp only [spell_cons, spell_nil, ofArgument, List.append_nil, List.cons_append, mnemonic,
        htake, hdrop]
    | noMnemonic hend =>
      subst hend
      rfl
    | other hc => exact absurd hc (by decide)

/-! ## Reading escapes -/

/-- The commands for fonts, sizes, strings and ignored text take an argument, and nothing else. -/
theorem afterCommand_of_argument (hc : c ∈ ['f', 'm', 's', '*']) (t : Text) :
    afterCommand (Escape.ofCommand [c]) t = argument t := by
  simp only [List.mem_cons, List.not_mem_nil, or_false] at hc
  rcases hc with rfl | rfl | rfl | rfl <;> rfl

/-- A command that takes neither an argument nor the name of a character takes nothing at all. -/
theorem afterCommand_of_other (hc : c ∉ ['f', 'm', 's', '*', '(', '[']) (t : Text) :
    afterCommand (Escape.ofCommand [c]) t = ([], t) := by
  simp only [List.mem_cons, List.not_mem_nil, or_false, not_or] at hc
  unfold Escape.ofCommand
  split <;> simp_all [afterCommand]

/-- **What follows a command** depends on the command.

**Proof sketch.** By the command: one that takes an argument, one that takes two characters, one
that takes a name, or any other. No form of operand belongs to two of them. -/
theorem afterCommand_eq_iff :
    afterCommand (Escape.ofCommand [c]) t = (xs, rest) ↔
      spell xs ++ rest = t ∧ IsOperand (rest = []) c xs := by
  by_cases hargument : c ∈ ['f', 'm', 's', '*']
  · rw [afterCommand_of_argument hargument, argument_eq_iff]
    refine and_congr_right fun _ => ⟨.argument hargument, fun h => ?_⟩
    cases h with
    | argument _ h => exact h
    | mnemonic | noMnemonic | bracketed => exact absurd hargument (by decide)
    | other hc => exact absurd (List.mem_append_left ['(', '['] hargument) hc
  by_cases hparen : c = '('
  · subst hparen
    exact mnemonic_eq_iff
  by_cases hbracket : c = '['
  · subst hbracket
    refine bracketed_eq_iff.trans (and_congr_right fun _ => ⟨.bracketed, fun h => ?_⟩)
    cases h with
    | argument hc => exact absurd hc (by decide)
    | bracketed h => exact h
    | other hc => exact absurd hc (by decide)
  have hother : c ∉ ['f', 'm', 's', '*', '(', '['] := by simp_all
  rw [afterCommand_of_other hother]
  constructor
  · intro h
    obtain ⟨rfl, rfl⟩ := Prod.mk.inj h
    exact ⟨rfl, .other hother⟩
  · rintro ⟨rfl, h⟩
    cases h with
    | argument hc => exact absurd hc hargument
    | mnemonic | noMnemonic => exact absurd rfl hparen
    | bracketed => exact absurd rfl hbracket
    | other => rfl

/-- **An escape** is read from its backslash on. At the end of the text the backslash stands alone;
otherwise the next character is the command, whatever it is. -/
theorem escape_eq_iff :
    escape t = (xs, rest) ↔
      spell xs ++ rest = t ∧ IsEscape (rest = []) (⟨.backslash, ['\\']⟩ :: xs) := by
  cases t with
  | nil =>
    constructor
    · intro h
      obtain ⟨rfl, rfl⟩ := Prod.mk.inj h
      exact ⟨rfl, .lone rfl⟩
    · rintro ⟨hspell, h⟩
      obtain ⟨hxs, rfl⟩ := List.append_eq_nil_iff.mp hspell
      cases h with
      | lone => rfl
      | command => simp at hxs
  | cons c t =>
    have hescape : escape (c :: t) = (⟨.command, [c]⟩ ::
      (afterCommand (Escape.ofCommand [c]) t).1, (afterCommand (Escape.ofCommand [c]) t).2) := rfl
    constructor
    · intro h
      have hspell := spell_escape (c :: t)
      rw [h] at hspell
      refine ⟨hspell, ?_⟩
      obtain ⟨rfl, rfl⟩ := Prod.mk.inj (hescape.symm.trans h)
      exact .command (afterCommand_eq_iff.mp rfl).2
    · rintro ⟨hspell, h⟩
      cases h with
      | lone hend =>
        subst hend
        simp at hspell
      | @command d ys h =>
        obtain ⟨rfl, htext⟩ := List.cons.inj hspell
        rw [hescape, afterCommand_eq_iff.mpr ⟨htext, h⟩]

/-! ## Reading chunks -/

/-- A character stands for itself unless it is a backslash or a quote. -/
theorem isPlain_iff : isPlain c = true ↔ c ≠ '\\' ∧ c ≠ '"' := by
  simp [isPlain]

/-- Lexemes of a sentence spell out something. No lexeme of a sentence is empty. -/
theorem IsSentence.spell_eq_nil_iff (h : IsSentence xs) : spell xs = [] ↔ xs = [] := by
  refine ⟨fun hspell => ?_, fun hnil => by rw [hnil, spell_nil]⟩
  cases h with
  | nil => rfl
  | word hne => exact absurd (List.append_eq_nil_iff.mp hspell).1 hne
  | quote => simp at hspell
  | escape hescape =>
    cases hescape with
    | lone => simp at hspell
    | command => simp at hspell

/-- A sentence that does not begin with a word spells a text that begins with no plain character. It
begins with a quote or a backslash. -/
theorem IsSentence.head?_spell (h : IsSentence xs) (hnext : ∀ x ∈ xs.head?, x.kind ≠ .word) :
    ∀ d ∈ (spell xs).head?, isPlain d = false := by
  intro d hd
  cases h with
  | nil => simp at hd
  | word => exact absurd rfl (hnext _ rfl)
  | quote =>
    obtain rfl : '"' = d := by simpa using hd
    rfl
  | escape hescape =>
    have hbackslash : '\\' = d := by
      cases hescape with
      | lone => simpa using hd
      | command => simpa using hd
    rw [← hbackslash]
    rfl

/-- The lexemes of a chunk begin with a word only where the chunk begins with a plain character. A
chunk that begins with a quote or a backslash begins with a lexeme of that kind. -/
theorem kind_ne_word_of_head? (ht : ∀ d ∈ t.head?, isPlain d = false) :
    ∀ x ∈ (ofChunk t).head?, x.kind ≠ .word := by
  intro x hx
  cases t with
  | nil => simp [ofChunk] at hx
  | cons d t =>
    have hd := ht d rfl
    rw [ofChunk] at hx
    split at hx
    · obtain rfl := Option.some.inj hx
      simp
    · split at hx
      · obtain rfl := Option.some.inj hx
        simp
      · simp_all [isPlain]

/-- **The lexemes of a chunk** are a sentence.

**Proof sketch.** By the recursion of `ofChunk`; each part is in the grammar by its equation. -/
theorem isSentence_ofChunk (t : Text) : IsSentence (ofChunk t) := by
  induction t using ofChunk.induct with
  | case1 =>
    rw [ofChunk]
    exact .nil
  | case2 c t hc ih =>
    obtain rfl : c = '"' := by simpa using hc
    rw [ofChunk_quote]
    exact .quote ih
  | case3 c t hq hc ih =>
    obtain rfl : c = '\\' := by simpa using hc
    have hend : ((escape t).2 = []) = (ofChunk (escape t).2 = []) := by
      rw [← ih.spell_eq_nil_iff, spell_ofChunk]
    have hescape : IsEscape ((escape t).2 = []) (⟨.backslash, ['\\']⟩ :: (escape t).1) :=
      (escape_eq_iff.mp rfl).2
    rw [hend] at hescape
    rw [ofChunk, if_neg hq, if_pos hc]
    exact .escape hescape ih
  | case4 c t hq hb ih =>
    have hplain : c ≠ '\\' ∧ c ≠ '"' := by simp_all
    rw [ofChunk, if_neg hq, if_neg hb]
    refine .word (List.cons_ne_nil _ _) ?_ (kind_ne_word_of_head? fun d hd => ?_) ih
    · intro d hd
      rcases List.mem_cons.mp hd with rfl | hd
      · exact hplain
      · exact isPlain_iff.mp (List.mem_takeWhile_imp hd)
    · have hnot := List.head?_dropWhile_not isPlain t
      rw [Option.mem_def.mp hd] at hnot
      simpa using hnot

/-- **A sentence** is read from what it spells.

**Proof sketch.** By induction on the sentence. A word ends before the next lexeme, which is no
word. An escape is read by its equation: what is left is empty just where no lexeme follows. -/
theorem ofChunk_spell (h : IsSentence xs) : ofChunk (spell xs) = xs := by
  induction h with
  | nil =>
    rw [spell_nil, ofChunk]
  | word hne hw hnext h ih =>
    rw [spell_cons, ofChunk_plain_append hne (fun c hc => isPlain_iff.mpr (hw c hc))
      (h.head?_spell hnext), ih]
  | quote h ih =>
    rw [spell_cons, List.singleton_append, ofChunk_quote, ih]
  | @escape xs ys hescape h ih =>
    have hend : (ys = []) = (spell ys = []) := by rw [h.spell_eq_nil_iff]
    rw [hend] at hescape
    obtain ⟨zs, rfl⟩ : ∃ zs, xs = ⟨.backslash, ['\\']⟩ :: zs := by
      cases hescape with
      | lone => exact ⟨_, rfl⟩
      | command => exact ⟨_, rfl⟩
    have hread := escape_eq_iff.mpr ⟨rfl, hescape⟩
    rw [spell_append, spell_cons, List.cons_append, List.nil_append, List.cons_append, ofChunk,
      if_neg (by decide), if_pos (by decide), hread, ih]

/-- **The lexemes of a chunk** are the only sentence that spells it out. -/
theorem ofChunk_eq_iff : ofChunk t = xs ↔ spell xs = t ∧ IsSentence xs := by
  constructor
  · rintro rfl
    exact ⟨spell_ofChunk t, isSentence_ofChunk t⟩
  · rintro ⟨rfl, h⟩
    exact ofChunk_spell h

end Lexeme

/-! ## Tokens -/

namespace Token

variable {startsLine : Bool} {line column : Int} {ts : List Token}

/-- Tokens side by side on a line are their lexemes, placed. By induction on the tokens: each stands
where the one before it ends. -/
theorem place_map_lexeme (h : SideBySide startsLine column ts) (hline : ∀ t ∈ ts, t.line = line) :
    place startsLine line column (ts.map lexeme) = ts := by
  induction ts generalizing startsLine column with
  | nil => rfl
  | cons t ts ih =>
    obtain ⟨rfl, rfl, h⟩ := h
    obtain ⟨ht, hts⟩ := List.forall_mem_cons.mp hline
    rw [List.map_cons, place]
    have hrest := ih h hts
    simp only [lexeme] at hrest ⊢
    rw [hrest, ← ht]

/-- The lexemes of tokens spell what the tokens spell: the places of tokens do not matter to it. -/
theorem spell_map_lexeme (ts : List Token) : Lexeme.spell (ts.map lexeme) = valueOf ts := by
  rw [Lexeme.spell, List.flatMap_map]
  rfl

/-- **The tokens of a chunk** that begins with ink, and not with the point of a macro, are the only
ones side by side in its place that spell it out and are a sentence.

**Proof sketch.** Tokens side by side are determined by their lexemes and their place. The lexemes
of a chunk are a sentence that spells it out, and there is no other one. -/
theorem ofChunk_eq_iff_isSentence {chunk : Text} (hchunk : ∃ c ∈ chunk.head?, isSpace c = false)
    (hpoint : ¬ (startsLine = true ∧ chunk.head? = some '.')) :
    ofChunk chunk startsLine line column = ts ↔
      (SideBySide startsLine column ts ∧ ∀ t ∈ ts, t.line = line) ∧
        valueOf ts = chunk ∧ Lexeme.IsSentence (ts.map lexeme) := by
  obtain ⟨c, hhead, hc⟩ := hchunk
  obtain ⟨u, rfl⟩ : ∃ u, chunk = c :: u := by
    cases chunk with
    | nil => simp at hhead
    | cons d u =>
      obtain rfl : d = c := by simpa using hhead
      exact ⟨u, rfl⟩
  have hlexemes : lexemes startsLine (c :: u) = Lexeme.ofChunk (c :: u) := by
    have hmacro : ¬ (startsLine && c == '.') = true := by simpa using hpoint
    simp only [lexemes]
    rw [if_neg hmacro, if_neg (by simp [hc])]
  rw [ofChunk, hlexemes]
  constructor
  · rintro rfl
    refine ⟨⟨sideBySide_place .., fun t ht => line_of_mem_place ht⟩, ?_, ?_⟩
    · rw [valueOf_place, Lexeme.spell_ofChunk]
    · rw [map_lexeme_place]
      exact Lexeme.isSentence_ofChunk _
  · rintro ⟨⟨hside, hline⟩, hvalue, hsentence⟩
    rw [← spell_map_lexeme] at hvalue
    rw [Lexeme.ofChunk_eq_iff.mpr ⟨hvalue, hsentence⟩, place_map_lexeme hside hline]

/-- A font escape and a word. -/
theorem ofChunk_font_word :
    (∃ c ∈ "\\fBx".toList.head?, isSpace c = false) ∧
      ¬ (true = true ∧ "\\fBx".toList.head? = some '.') ∧
      ofChunk "\\fBx".toList true 3 5 =
        [⟨.backslash, ['\\'], true, 3, 5⟩, ⟨.command, ['f'], false, 3, 6⟩,
          ⟨.argument, ['B'], false, 3, 7⟩, ⟨.word, ['x'], false, 3, 8⟩] := by
  have hink : ∃ c ∈ "\\fBx".toList.head?, isSpace c = false := ⟨'\\', rfl, rfl⟩
  have hpoint : ¬ (true = true ∧ "\\fBx".toList.head? = some '.') := by decide
  refine ⟨hink, hpoint, (ofChunk_eq_iff_isSentence hink hpoint).mpr ⟨⟨?_, by simp⟩, rfl, ?_⟩⟩
  · simp [SideBySide]
  · have hfont : Lexeme.IsEscape ([(⟨.word, ['x']⟩ : Lexeme)] = [])
        [⟨.backslash, ['\\']⟩, ⟨.command, ['f']⟩, ⟨.argument, ['B']⟩] :=
      .command (.argument (by decide) (.char (by decide)))
    have hplain : ∀ c ∈ ['x'], c ≠ '\\' ∧ c ≠ '"' := by simp
    exact .escape hfont (.word (List.cons_ne_nil _ _) hplain (by simp) .nil)

end Token

end Manpage

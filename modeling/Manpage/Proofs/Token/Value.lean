import Manpage.Proofs.Text.Lines
import Manpage.Proofs.Token.Chunk
import Manpage.Token.Source

/-!
# The values of tokens

The lexemes of a chunk spell it out, so the value of a token is a part of its chunk: the values
hold nothing but characters of the source, those of words and quotes are ink, and those of blanks
are blanks that end no line.

## Main definitions

* `Manpage.Token.IsCut` — what the value of a token of a source is.

## Main results

* `Manpage.Lexeme.spell_ofChunk` — the lexemes of a chunk spell it out.
* `Manpage.Token.isCut_of_mem_ofSource` — the values of the tokens of a source.
-/

namespace Manpage

/-! ## The lexemes of a chunk -/

namespace Lexeme

/-- The characters of lexemes, in order. -/
def spell (xs : List Lexeme) : Text :=
  xs.flatMap Lexeme.value

/-- No lexemes spell nothing. -/
@[simp] theorem spell_nil : spell [] = [] := rfl

/-- Lexemes spell the value of the first and what the others spell. -/
@[simp] theorem spell_cons (x : Lexeme) (xs : List Lexeme) :
    spell (x :: xs) = x.value ++ spell xs :=
  List.flatMap_cons

/-- Two rows of lexemes spell what the first spells and what the second spells. -/
@[simp] theorem spell_append (xs ys : List Lexeme) : spell (xs ++ ys) = spell xs ++ spell ys :=
  List.flatMap_append

/-- A name in brackets and what is left behind it spell out the text. -/
theorem spell_bracketed (t : Text) : spell (bracketed t).1 ++ (bracketed t).2 = t := by
  have h := List.takeWhile_append_dropWhile (p := (· != ']')) (l := t)
  unfold bracketed
  split
  · simp
  · rename_i heq
    rw [heq] at h
    simpa using h

/-- An argument and what is left behind it spell out the text. By cases on its first character. -/
theorem spell_argument (t : Text) : spell (argument t).1 ++ (argument t).2 = t := by
  cases t with
  | nil => rfl
  | cons c t =>
    simp only [argument]
    split
    · simp
    · split
      · simpa using spell_bracketed t
      · split
        · have h := List.take_append_drop 1 t
          simpa only [spell_cons, spell_nil, List.append_nil, List.cons_append, List.cons.injEq,
            true_and] using h
        · simp

/-- The two characters of a name and what is left behind them spell out the text. -/
theorem spell_mnemonic (t : Text) : spell (mnemonic t).1 ++ (mnemonic t).2 = t := by
  cases t with
  | nil => rfl
  | cons c t =>
    have h := List.take_append_drop 2 (c :: t)
    simpa only [mnemonic, spell_cons, spell_nil, List.append_nil] using h

/-- What a command takes and what is left behind it spell out the text. By cases on what the escape
takes, nothing being left out. -/
theorem spell_afterCommand (e : Escape) (t : Text) :
    spell (afterCommand e t).1 ++ (afterCommand e t).2 = t := by
  unfold afterCommand
  split
  · exact spell_argument t
  · exact spell_argument t
  · exact spell_argument t
  · exact spell_bracketed t
  · exact spell_mnemonic t
  all_goals rfl

/-- An escape and what is left behind it spell out the text. Nothing is lost and nothing is read
twice. -/
theorem spell_escape (t : Text) : spell (escape t).1 ++ (escape t).2 = t := by
  cases t with
  | nil => rfl
  | cons c t => simp [escape, spell_afterCommand]

/-- The lexemes of a chunk spell it out. By induction as the chunk is read: a quote, an escape or a
run of plain characters comes first, and the rest is read in the same way. -/
theorem spell_ofChunk (w : Text) : spell (ofChunk w) = w := by
  induction w using ofChunk.induct with
  | case1 => simp [ofChunk]
  | case2 c t hc ih => simp [ofChunk, hc, ih]
  | case3 c t hq hc ih =>
    rw [ofChunk, if_neg hq, if_pos hc, List.cons_append, spell_cons, spell_append, ih,
      spell_escape]
    rfl
  | case4 c t hq hb ih =>
    rw [ofChunk, if_neg hq, if_neg hb, spell_cons, ih]
    simp [List.takeWhile_append_dropWhile]

/-- The lexemes of a chunk begin with a plain one, a quote, or a backslash. Its first character says
which. -/
theorem ofChunk_eq_cons (c : Char) (u : Text) :
    ∃ x xs, ofChunk (c :: u) = x :: xs ∧
      (x.kind = .word ∨ x.kind = .quote ∨ x.kind = .backslash) := by
  rw [ofChunk]
  split
  · exact ⟨_, _, rfl, Or.inr (Or.inl rfl)⟩
  · split
    · exact ⟨_, _, rfl, Or.inr (Or.inr rfl)⟩
    · exact ⟨_, _, rfl, Or.inl rfl⟩

/-- The kinds of lexemes that are parts of an escape behind the backslash. -/
def IsInEscape (x : Lexeme) : Prop :=
  x.kind = .command ∨ x.kind = .argument ∨ x.kind = .openBracket ∨ x.kind = .closeBracket ∨
    x.kind = .openParen

/-- A name in brackets is read as parts of an escape. There are the opening bracket, the name and,
if it is there, the closing bracket. -/
theorem isInEscape_of_mem_bracketed {t : Text} {x : Lexeme} (h : x ∈ (bracketed t).1) :
    x.IsInEscape := by
  unfold bracketed at h
  split at h
  · simp_all [IsInEscape]
  · simp only [List.mem_cons, List.not_mem_nil, or_false] at h
    rcases h with rfl | rfl
    · simp [IsInEscape]
    · simp [IsInEscape]

/-- What a command takes is read as parts of an escape. By cases on the command and on the form of
its argument. -/
theorem isInEscape_of_mem_afterCommand {e : Escape} {t : Text} {x : Lexeme}
    (h : x ∈ (afterCommand e t).1) : x.IsInEscape := by
  have hargument : x ∈ (argument t).1 → x.IsInEscape := by
    unfold argument
    split
    · simp
    · split
      · rintro hx
        simp only [List.mem_cons, List.not_mem_nil, or_false] at hx
        rcases hx with rfl | rfl <;> simp [IsInEscape]
      · split
        · intro hx
          rcases List.mem_cons.mp hx with rfl | hx
          · simp [IsInEscape]
          · exact isInEscape_of_mem_bracketed hx
        · split
          · simp +contextual [IsInEscape]
          · simp +contextual [IsInEscape]
  have hmnemonic : x ∈ (mnemonic t).1 → x.IsInEscape := by
    unfold mnemonic
    split
    · simp
    · simp +contextual [IsInEscape]
  unfold afterCommand at h
  split at h
  · exact hargument h
  · exact hargument h
  · exact hargument h
  · exact isInEscape_of_mem_bracketed h
  · exact hmnemonic h
  all_goals exact absurd h List.not_mem_nil

/-- All that follows a backslash in an escape is read as parts of the escape. -/
theorem isInEscape_of_mem_escape {t : Text} {x : Lexeme} (h : x ∈ (escape t).1) :
    x.IsInEscape := by
  cases t with
  | nil => exact absurd h List.not_mem_nil
  | cons c t =>
    rcases List.mem_cons.mp h with rfl | h
    · exact Or.inl rfl
    · exact isInEscape_of_mem_afterCommand h

/-- A lexeme of a chunk is plain, a quote or a backslash, or a part of an escape. By induction along
the reader. -/
theorem kind_cases_of_mem_ofChunk {w : Text} {x : Lexeme} (h : x ∈ ofChunk w) :
    x.kind = .word ∨ x.kind = .quote ∨ x.kind = .backslash ∨ x.IsInEscape := by
  induction w using ofChunk.induct with
  | case1 => simp [ofChunk] at h
  | case2 c t hc ih =>
    rw [ofChunk, if_pos hc] at h
    rcases List.mem_cons.mp h with rfl | h
    · exact Or.inr (Or.inl rfl)
    · exact ih h
  | case3 c t hq hc ih =>
    rw [ofChunk, if_neg hq, if_pos hc, List.cons_append] at h
    rcases List.mem_cons.mp h with rfl | h
    · exact Or.inr (Or.inr (Or.inl rfl))
    · rcases List.mem_append.mp h with h | h
      · exact Or.inr (Or.inr (Or.inr (isInEscape_of_mem_escape h)))
      · exact ih h
  | case4 c t hq hb ih =>
    rw [ofChunk, if_neg hq, if_neg hb] at h
    rcases List.mem_cons.mp h with rfl | h
    · exact Or.inl rfl
    · exact ih h

/-- Inside a chunk of ink, there are no blanks, and plain lexemes are not empty. By induction along
the reader: plain runs begin with a character, and parts of escapes are of other kinds. -/
theorem kind_of_mem_ofChunk {w : Text} {x : Lexeme} (h : x ∈ ofChunk w) :
    x.kind ≠ .blank ∧ (x.kind = .word ∨ x.kind = .quote → x.value ≠ []) := by
  induction w using ofChunk.induct with
  | case1 => simp [ofChunk] at h
  | case2 c t hc ih =>
    rw [ofChunk, if_pos hc] at h
    rcases List.mem_cons.mp h with rfl | h
    · simp
    · exact ih h
  | case3 c t hq hc ih =>
    rw [ofChunk, if_neg hq, if_pos hc, List.cons_append] at h
    rcases List.mem_cons.mp h with rfl | h
    · simp
    · rcases List.mem_append.mp h with h | h
      · rcases isInEscape_of_mem_escape h with hk | hk | hk | hk | hk <;> simp [hk]
      · exact ih h
  | case4 c t hq hb ih =>
    rw [ofChunk, if_neg hq, if_neg hb] at h
    rcases List.mem_cons.mp h with rfl | h
    · simp
    · exact ih h

end Lexeme

/-! ## Tokens -/

namespace Token

variable {source line m : Text} {t : Token} {startsLine : Bool}

/-- What the value of a token of a source is. It holds characters of the source; a word and a quote
are ink, a blank is blank and ends no line, and none of them is empty. -/
structure IsCut (source : Text) (t : Token) : Prop where
  mem : ∀ c ∈ t.value, c ∈ source
  isInk : t.kind = .word ∨ t.kind = .quote → t.value ≠ [] ∧ t.value.isInk = true
  isBlank : t.kind = .blank → t.value ≠ [] ∧ t.value.isBlank = true ∧ '\n' ∉ t.value

/-- Placed lexemes keep their class and their characters. By induction on the lexemes. -/
theorem exists_of_mem_place {xs : List Lexeme} {number column : Int}
    (h : t ∈ place startsLine number column xs) :
    ∃ x ∈ xs, t.kind = x.kind ∧ t.value = x.value := by
  induction xs generalizing startsLine column with
  | nil => exact absurd h List.not_mem_nil
  | cons x xs ih =>
    rcases List.mem_cons.mp h with rfl | h
    · exact ⟨x, List.mem_cons_self, rfl, rfl⟩
    · obtain ⟨y, hy, hkv⟩ := ih h
      exact ⟨y, List.mem_cons_of_mem x hy, hkv⟩

/-- Tokens that are made of lexemes start no line where the first of them starts none. -/
theorem startsLine_of_mem_place {xs : List Lexeme} {number column : Int}
    (h : t ∈ place false number column xs) : t.startsLine = false := by
  induction xs generalizing column with
  | nil => exact absurd h List.not_mem_nil
  | cons x xs ih =>
    rcases List.mem_cons.mp h with rfl | h
    · rfl
    · exact ih h

/-- The values of the tokens of a chunk are characters of the source; those of words are of ink and
not empty, and those of blanks are blank and hold no line feed.

**Proof sketch.** The chunk is blank throughout or ink throughout. A blank one is a single token; of
one of ink each lexeme is a stretch of it, by cases on its kind. -/
theorem isCut_of_mem_ofChunk (hline : ∀ c ∈ line, c ∈ source ∧ isLineEnd c = false)
    (hm : m ∈ line.splitBy sameChunk) {number column : Int}
    (h : t ∈ ofChunk m startsLine number column) : t.IsCut source := by
  have hsort := isBlank_or_isInk_of_isChain (List.isChain_of_mem_splitBy hm)
  have hchars : ∀ c ∈ m, c ∈ source ∧ isLineEnd c = false :=
    fun c hc => hline c (mem_of_mem_splitBy hm hc)
  obtain ⟨x, hx, hkind, hvalue⟩ := exists_of_mem_place h
  rcases t with ⟨kind, value, startsLine', number', column'⟩
  obtain rfl : kind = x.kind := hkind
  obtain rfl : value = x.value := hvalue
  cases m with
  | nil => exact absurd hx List.not_mem_nil
  | cons c u =>
    simp only [lexemes] at hx
    split at hx
    · obtain rfl := List.mem_singleton.mp hx
      exact ⟨fun d hd => (hchars d hd).1, by simp, by simp⟩
    · split at hx
      · rename_i hc
        obtain rfl := List.mem_singleton.mp hx
        -- the chunk begins with a blank, so it is blank throughout
        have hblank : Text.isBlank (c :: u) = true := by
          refine hsort.resolve_right fun hk => ?_
          simp [hc] at hk
        refine ⟨fun d hd => (hchars d hd).1, by simp, fun _ => ⟨by simp, hblank, ?_⟩⟩
        intro hnewline
        exact absurd (hchars _ hnewline).2 (by decide)
      · rename_i hc
        -- it begins with ink, so it is ink throughout
        have hink : Text.isInk (c :: u) = true := by
          refine hsort.resolve_left fun hb => ?_
          simp [hc] at hb
        obtain ⟨hkind, hne⟩ := Lexeme.kind_of_mem_ofChunk hx
        have hmem : ∀ d ∈ x.value, d ∈ c :: u := by
          intro d hd
          rw [← Lexeme.spell_ofChunk (c :: u)]
          exact List.mem_flatMap.mpr ⟨x, hx, hd⟩
        refine ⟨fun d hd => (hchars d (hmem d hd)).1, fun hk => ⟨hne hk, ?_⟩,
          fun hk => absurd hk hkind⟩
        rw [Text.isInk_iff] at hink ⊢
        exact fun d hd => hink d (hmem d hd)

/-- A chunk that is placed on a line has one of the texts that are placed. -/
theorem mem_of_mem_place {a : Chunk} {offset : Nat} {ms : List Text}
    (h : a ∈ Chunk.place offset ms) : a.text ∈ ms := by
  induction ms generalizing offset with
  | nil => exact absurd h List.not_mem_nil
  | cons m ms ih =>
    rcases List.mem_cons.mp h with rfl | h
    · exact List.mem_cons_self
    · exact List.mem_cons_of_mem m (ih h)

/-- The values of the tokens of a line are such cuts: an empty line has a single token with nothing
in it, and the tokens of any other line are those of its chunks. -/
theorem isCut_of_mem_ofLine (hline : ∀ c ∈ line, c ∈ source ∧ isLineEnd c = false) {number : Nat}
    (h : t ∈ ofLine number line) : t.IsCut source := by
  unfold ofLine at h
  split at h
  · obtain rfl := List.mem_singleton.mp h
    exact ⟨by simp, by simp, by simp⟩
  · split at h
    · exact absurd h List.not_mem_nil
    · rename_i first more heq
      have hmem : ∀ a ∈ first :: more, a.text ∈ line.splitBy sameChunk := by
        intro a ha
        rw [← heq] at ha
        exact mem_of_mem_place ha
      split at h
      · exact absurd h List.not_mem_nil
      · rcases List.mem_append.mp h with h | h
        · exact isCut_of_mem_ofChunk hline (hmem first List.mem_cons_self) h
        · obtain ⟨a, ha, h⟩ := List.mem_flatMap.mp h
          exact isCut_of_mem_ofChunk hline (hmem a (List.mem_cons_of_mem first ha)) h

/-- The values of the tokens of a source. By induction on the lines of the source, whose characters
are of the source and are no line ends. -/
theorem isCut_of_mem_ofSource (h : t ∈ ofSource source) : t.IsCut source := by
  have hlines : ∀ line ∈ source.splitLines, ∀ c ∈ line, c ∈ source ∧ isLineEnd c = false :=
    fun _ => Text.mem_splitLines
  unfold ofSource at h
  generalize source.splitLines = lines at h hlines
  generalize 1 = number at h
  induction lines generalizing number with
  | nil => exact absurd h List.not_mem_nil
  | cons line lines ih =>
    rcases List.mem_append.mp h with h | h
    · exact isCut_of_mem_ofLine (hlines line List.mem_cons_self) h
    · exact ih (fun l hl => hlines l (List.mem_cons_of_mem line hl)) (number + 1) h

end Token

end Manpage

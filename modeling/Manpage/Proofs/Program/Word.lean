import Manpage.Proofs.Program.Line

/-!
# The program of a line of text

The program of a line of text is put together from the words and blanks on it. A word is opened, its
parts are shown, and it is closed again.

## Main definitions

* `Manpage.IsWord` — the instructions in a word that shows a given text.
* `Manpage.IsText` — the instructions from some point of a line of text on, with the words there.
* `Manpage.IsLines` — the instructions for lines of text, with the words on them.
* `Manpage.Reads` — a chunk, or the rest of one, that is read as a given text.

## Main results

* `Manpage.Reads.plain`, `Manpage.Reads.quote`, `Manpage.Reads.escape` — chunks that begin with a
  plain character, a quote, or an escape.
-/

namespace Manpage

variable {isolating : Bool} {t : Token} {ts us : List Token} {below stack : List Frame}
  {v w u : Text} {is js : List Instr}

/-! ## The instructions in a word -/

/-- An instruction that only records something. -/
def Instr.isRecord : Instr → Bool
  | .consume _ | .note _ | .warn _ _ => true
  | _ => false

/-- The text that an instruction shows. -/
def Instr.shown : Instr → Text
  | .emit text => text
  | _ => []

/-- Instructions that show the parts of a text without blanks, and record things. -/
structure IsWord (v : Text) (is : List Instr) : Prop where
  each : ∀ i ∈ is, i.isRecord = true ∨ ∃ text, i = .emit text ∧ text ≠ [] ∧ text.isInk = true
  shown_eq : is.flatMap Instr.shown = v

namespace IsWord

/-- No instructions show the empty word. -/
theorem nil : IsWord [] [] :=
  ⟨by simp, rfl⟩

/-- Two words, written without anything between them, are one. -/
theorem append (h : IsWord v is) (h' : IsWord w js) : IsWord (v ++ w) (is ++ js) := by
  refine ⟨?_, by rw [List.flatMap_append, h.shown_eq, h'.shown_eq]⟩
  intro i hi
  rcases List.mem_append.mp hi with hi | hi
  · exact h.each i hi
  · exact h'.each i hi

/-- A record in front of a word shows nothing. What is shown is the same with it as without. -/
theorem record {i : Instr} (hi : i.isRecord = true) (h : IsWord v is) : IsWord v (i :: is) := by
  refine ⟨?_, ?_⟩
  · intro j hj
    rcases List.mem_cons.mp hj with rfl | hj
    · exact Or.inl hi
    · exact h.each j hj
  · have hshown : i.shown = [] := by
      cases i <;> first | rfl | exact Bool.noConfusion hi
    rw [List.flatMap_cons, hshown, h.shown_eq, List.nil_append]

/-- A record behind a word shows nothing. -/
theorem append_record {i : Instr} (hi : i.isRecord = true) (h : IsWord v is) :
    IsWord v (is ++ [i]) := by
  have happend := h.append (nil.record hi)
  rwa [List.append_nil] at happend

/-- A text of ink in front of a word is the beginning of a longer one. -/
theorem emit (hne : v ≠ []) (hink : v.isInk = true) (h : IsWord w is) :
    IsWord (v ++ w) (.emit v :: is) := by
  refine ⟨?_, by rw [List.flatMap_cons, h.shown_eq]; rfl⟩
  intro j hj
  rcases List.mem_cons.mp hj with rfl | hj
  · exact Or.inr ⟨v, rfl, hne, hink⟩
  · exact h.each j hj

/-- A record in front of a word can be left out. -/
theorem of_record {i : Instr} (hi : i.isRecord = true) (h : IsWord v (i :: is)) : IsWord v is := by
  refine ⟨fun j hj => h.each j (List.mem_cons_of_mem i hj), ?_⟩
  have hshown : i.shown = [] := by
    cases i <;> first | rfl | exact Bool.noConfusion hi
  have heq := h.shown_eq
  rwa [List.flatMap_cons, hshown, List.nil_append] at heq

/-- The text begins with the first that is shown. -/
theorem of_emit (h : IsWord w (.emit v :: is)) :
    v.isInk = true ∧ ∃ rest, w = v ++ rest ∧ IsWord rest is := by
  refine ⟨?_, is.flatMap Instr.shown, h.shown_eq.symm,
    fun j hj => h.each j (List.mem_cons_of_mem _ hj), rfl⟩
  rcases h.each _ List.mem_cons_self with hrecord | ⟨text, heq, -, hink⟩
  · exact Bool.noConfusion hrecord
  · obtain rfl := Instr.emit.inj heq
    exact hink

end IsWord

/-- The instructions from some point of a line of text on, where no word is open, with the words
that are still to come. Each of them ends at a blank or at the end of the line. -/
inductive IsText : List Text → List Instr → Prop where
  | done : IsText [] [.endLine]
  | blank (t : Token) (b : Text) {ws : List Text} {is : List Instr} : IsText ws is →
      IsText ws (.consume t :: .blank b :: is)
  | last {v : Text} {is : List Instr} : IsWord v is →
      IsText [v] (.openWord :: is ++ [.closeScope, .endLine])
  | word (t : Token) (b : Text) {v : Text} {ws : List Text} {is js : List Instr} : IsWord v is →
      IsText ws js →
        IsText (v :: ws) (.openWord :: is ++ .closeScope :: .consume t :: .blank b :: js)

/-- The instructions for lines of text, with the words on them. -/
inductive IsLines : List Text → List Instr → Prop where
  | nil : IsLines [] []
  | line {ws vs : List Text} {is js : List Instr} : IsText ws is → IsLines vs js →
      IsLines (ws ++ vs) (.beginLine :: is ++ js)

/-! ## Chunks that are read in a word -/

/-- A chunk, or the rest of one, that is read as a given text where a word is open. -/
def Reads (u v : Text) : Prop :=
  ∀ (isolating : Bool) (below : List Frame) (number column : Int), ∃ is, IsWord v is ∧
    feedAll isolating (.unit :: below) (Token.place false number column (Lexeme.ofChunk u)) =
      ⟨is, .unit :: below⟩

/-- The first token is read, and then the others with the stack that it leaves. -/
theorem feedAll_cons (isolating : Bool) (stack : List Frame) (t : Token) (ts : List Token) :
    feedAll isolating stack (t :: ts) =
      ⟨(feed isolating stack t).out ++ (feedAll isolating (feed isolating stack t).frames ts).out,
        (feedAll isolating (feed isolating stack t).frames ts).frames⟩ := rfl

/-- A plain character and those that follow it form a lexeme. -/
theorem Lexeme.ofChunk_plain {c : Char} (hc : Lexeme.isPlain c = true) (u : Text) :
    Lexeme.ofChunk (c :: u) =
      ⟨.word, c :: u.takeWhile Lexeme.isPlain⟩ :: Lexeme.ofChunk (u.dropWhile Lexeme.isPlain) := by
  simp only [Lexeme.isPlain, Bool.and_eq_true, bne_iff_ne, ne_eq] at hc
  rw [Lexeme.ofChunk, if_neg (by simpa using hc.2), if_neg (by simpa using hc.1)]

namespace Reads

/-- The empty text is read as the empty word. -/
theorem nil : Reads [] [] := by
  intro isolating below number column
  exact ⟨[], IsWord.nil, by simp [Lexeme.ofChunk, Token.place]⟩

/-- A token of plain characters or a quote in a word. -/
theorem feed_shown (hk : t.kind = .word ∨ t.kind = .quote) (hl : t.startsLine = false) :
    feed isolating (.unit :: below) t = ⟨[.consume t, .emit t.value], .unit :: below⟩ := by
  rcases hk with hk | hk <;> simp [feed, Frame.react, hl, hk, Step.word, Step.above]

/-- A quote before a chunk. A quote is a lexeme of its own, and is shown as it is within a word. -/
theorem quote (h : Reads u v) : Reads ('"' :: u) ('"' :: v) := by
  intro isolating below number column
  obtain ⟨is, his, heq⟩ := h isolating below number (column + (['"'] : Text).length)
  have hword : IsWord ('"' :: v) (.emit ['"'] :: is) :=
    IsWord.emit (v := ['"']) (by decide) (by decide) his
  refine ⟨_, hword.record (i := .consume ⟨.quote, ['"'], false, number, column⟩) rfl, ?_⟩
  have hlexemes : Lexeme.ofChunk ('"' :: u) = ⟨.quote, ['"']⟩ :: Lexeme.ofChunk u := by
    rw [Lexeme.ofChunk]
    rfl
  rw [hlexemes, Token.place, feedAll_cons, feed_shown (Or.inr rfl) rfl, heq]
  rfl

/-- A plain character before a chunk that begins with no other. It is a lexeme of its own, since the
character behind it ends the run of plain ones. -/
theorem plain_of_not_plain {c : Char} (hc : Lexeme.isPlain c = true) (hink : isSpace c = false)
    (hu : u.takeWhile Lexeme.isPlain = []) (h : Reads u v) : Reads (c :: u) (c :: v) := by
  have hdrop : u.dropWhile Lexeme.isPlain = u := by
    have happend := List.takeWhile_append_dropWhile (p := Lexeme.isPlain) (l := u)
    rwa [hu, List.nil_append] at happend
  intro isolating below number column
  obtain ⟨is, his, heq⟩ := h isolating below number (column + ([c] : Text).length)
  have hword : IsWord (c :: v) (.emit [c] :: is) :=
    IsWord.emit (v := [c]) (by simp) (by simp [hink]) his
  refine ⟨_, hword.record (i := .consume ⟨.word, [c], false, number, column⟩) rfl, ?_⟩
  rw [Lexeme.ofChunk_plain hc, hu, hdrop, Token.place, feedAll_cons, feed_shown (Or.inl rfl) rfl,
    heq]
  rfl

/-- A plain character before a chunk. It belongs to the same lexeme as the plain characters that
follow it, and is shown with them.

**Proof sketch.** By cases on what follows. If it is plain too, the character belongs to the same
token, whose text begins with the character and is shown at once; otherwise it is a token of its
own. -/
theorem plain {c : Char} (hc : Lexeme.isPlain c = true) (hink : isSpace c = false)
    (h : Reads u v) : Reads (c :: u) (c :: v) := by
  cases u with
  | nil => exact plain_of_not_plain hc hink rfl h
  | cons d u =>
    by_cases hd : Lexeme.isPlain d = true
    · intro isolating below number column
      obtain ⟨is, his, heq⟩ := h isolating below number (column + 1)
      rw [Lexeme.ofChunk_plain hd, Token.place, feedAll_cons, feed_shown (Or.inl rfl) rfl] at heq
      obtain ⟨hout, hframes⟩ := Step.mk.inj heq
      rw [← hout] at his
      obtain ⟨hd', rest, rfl, hrest⟩ := (IsWord.of_record rfl his).of_emit
      have hword : IsWord (c :: (d :: u.takeWhile Lexeme.isPlain ++ rest)) (.emit _ :: _) :=
        IsWord.emit (v := c :: d :: u.takeWhile Lexeme.isPlain) (by simp)
          (by rw [Text.isInk_cons, hink, hd']; rfl) hrest
      refine ⟨_, hword.record (i := .consume ⟨.word, c :: d :: u.takeWhile Lexeme.isPlain, false,
        number, column⟩) rfl, ?_⟩
      have hcolumn : column + ((c :: d :: u.takeWhile Lexeme.isPlain).length : Int) =
          column + 1 + ((d :: u.takeWhile Lexeme.isPlain).length : Int) := by
        simp only [List.length_cons]
        omega
      rw [Lexeme.ofChunk_plain hc, List.takeWhile_cons, if_pos hd, List.dropWhile_cons, if_pos hd,
        Token.place, feedAll_cons, feed_shown (Or.inl rfl) rfl, hcolumn]
      exact congrArg (Step.mk _) hframes
    · have hnil : (d :: u).takeWhile Lexeme.isPlain = [] := by
        rw [List.takeWhile_cons, if_neg hd]
      exact plain_of_not_plain hc hink hnil h

/-- An escape before a chunk. The escape has the given lexemes, whatever follows it.

**Proof sketch.** The tokens of the escape are read above the open word and leave nothing above it.
The chunk behind it is then read as it would be by itself, in another column. -/
theorem escape (e w : Text) (xs : List Lexeme)
    (hlexemes : ∀ u, Lexeme.escape (e ++ u) = (xs, u))
    (hread : ∀ (isolating : Bool) (below : List Frame) (number column : Int),
      let r := feedAll isolating (.unit :: below)
        (Token.place false number column (⟨.backslash, ['\\']⟩ :: xs))
      IsWord w r.out ∧ r.frames = .unit :: below)
    (h : Reads u v) : Reads ('\\' :: e ++ u) (w ++ v) := by
  intro isolating below number column
  obtain ⟨column', hplace⟩ := Stage.place_append false number column (⟨.backslash, ['\\']⟩ :: xs)
    (Lexeme.ofChunk u)
  obtain ⟨his, hframes⟩ := hread isolating below number column
  obtain ⟨js, hjs, heq⟩ := h isolating below number column'
  refine ⟨_ ++ js, his.append hjs, ?_⟩
  have hchunk : Lexeme.ofChunk ('\\' :: e ++ u) =
      (⟨.backslash, ['\\']⟩ :: xs) ++ Lexeme.ofChunk u := by
    rw [List.cons_append, Lexeme.ofChunk, hlexemes u]
    rfl
  rw [hchunk, hplace, feedAll_append, hframes]
  simp only [Bool.false_and, heq]

end Reads

end Manpage

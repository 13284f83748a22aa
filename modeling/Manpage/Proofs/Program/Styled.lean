import Manpage.Proofs.Program.Row

/-!
# The program of a line with font escapes

Font escapes in a word change the style and show nothing. What a font escape leaves waits for the
next token. If that is on the same line, nothing comes of it; at the end of the line it puts a
space into the word, which is still open.

## Main definitions

* `Manpage.IsStyledWord` — the instructions in a word with font escapes.
* `Manpage.IsStyledText`, `Manpage.IsStyledLines` — the instructions for a line of such words, and
  for several lines.
* `Manpage.ReadsStyled` — a chunk that is read as a given text with font escapes in it.
* `Manpage.ReadsStyledRow` — the chunks of a line of such words.

## Main results

* `Manpage.ReadsStyledRow.program_eq` — the program of a line of words with font escapes.
-/

namespace Manpage

variable {isolating : Bool} {t : Token} {ts : List Token} {below : List Frame} {u v w m : Text}
  {ms : List Text} {is js : List Instr} {ends : Bool} {ws : List (Text × Bool)}

/-! ## Instructions -/

/-- An instruction that changes the style. -/
def Instr.isStyling : Instr → Bool
  | .setStyle _ _ | .plainStyle => true
  | _ => false

/-- Records and changes of the style show nothing. -/
theorem Instr.shown_eq_nil {i : Instr} (h : i.isRecord = true ∨ i.isStyling = true) :
    i.shown = [] := by
  cases i with
  | emit => rcases h with h | h <;> exact Bool.noConfusion h
  | _ => rfl

/-- Instructions that show the parts of a text without blanks, change the style, and record
things. -/
structure IsStyledWord (v : Text) (is : List Instr) : Prop where
  each : ∀ i ∈ is, i.isRecord = true ∨ i.isStyling = true ∨
    ∃ text, i = .emit text ∧ text ≠ [] ∧ text.isInk = true
  shown_eq : is.flatMap Instr.shown = v

/-- The instructions of a word without font escapes are those of a word with them, which has none.
-/
theorem IsWord.isStyledWord (h : IsWord v is) : IsStyledWord v is :=
  ⟨fun i hi => (h.each i hi).imp_right Or.inr, h.shown_eq⟩

namespace IsStyledWord

/-- Two words with font escapes, written without anything between them, are one. -/
theorem append (h : IsStyledWord v is) (h' : IsStyledWord w js) :
    IsStyledWord (v ++ w) (is ++ js) :=
  ⟨List.forall_mem_append.mpr ⟨h.each, h'.each⟩,
    by rw [List.flatMap_append, h.shown_eq, h'.shown_eq]⟩

/-- Instructions that show nothing. -/
theorem of_silent (h : ∀ i ∈ is, i.isRecord = true ∨ i.isStyling = true) :
    IsStyledWord [] is := by
  refine ⟨fun i hi => (h i hi).imp_right Or.inl, ?_⟩
  rw [List.flatMap_eq_nil_iff]
  exact fun i hi => Instr.shown_eq_nil (h i hi)

/-- The first record of a word may be another. -/
theorem replace_head {i j : Instr} (hi : i.isRecord = true) (hj : j.isRecord = true)
    (h : IsStyledWord v (i :: is)) : IsStyledWord v (j :: is) := by
  refine ⟨List.forall_mem_cons.mpr ⟨Or.inl hj, fun k hk => ?_⟩, ?_⟩
  · exact h.each k (List.mem_cons_of_mem i hk)
  have heq := h.shown_eq
  rw [List.flatMap_cons, Instr.shown_eq_nil (Or.inl hi)] at heq
  rwa [List.flatMap_cons, Instr.shown_eq_nil (Or.inl hj)]

end IsStyledWord

/-- The space that a font escape at the end of a line puts into the word. -/
def endSpace (ends : Bool) : List Instr :=
  if ends then [.space] else []

/-- The instructions from some point of a line of text on, where no word is open, with the words
that are still to come, each with a mark where a font escape ends it at the end of the line. -/
inductive IsStyledText : List (Text × Bool) → List Instr → Prop where
  | done : IsStyledText [] [.endLine]
  | blank (t : Token) (b : Text) {ws : List (Text × Bool)} {is : List Instr} : IsStyledText ws is →
      IsStyledText ws (.consume t :: .blank b :: is)
  | last (ends : Bool) {v : Text} {is : List Instr} : IsStyledWord v is →
      IsStyledText [(v, ends)] (.openWord :: is ++ (endSpace ends ++ [.closeScope, .endLine]))
  | word (t : Token) (b : Text) {v : Text} {ws : List (Text × Bool)} {is js : List Instr} :
      IsStyledWord v is → IsStyledText ws js →
        IsStyledText ((v, false) :: ws)
          (.openWord :: is ++ .closeScope :: .consume t :: .blank b :: js)

/-- The instructions for lines of text, with the words on them. -/
inductive IsStyledLines : List (Text × Bool) → List Instr → Prop where
  | nil : IsStyledLines [] []
  | line {ws vs : List (Text × Bool)} {is js : List Instr} : IsStyledText ws is →
      IsStyledLines vs js → IsStyledLines (ws ++ vs) (.beginLine :: is ++ js)

/-! ## Chunks that are read in a word -/

/-- What a font escape leaves that ends a chunk. -/
def Frame.fontEnds (ends : Bool) : List Frame :=
  if ends then [.fontEnd] else []

/-- A chunk that is read as a given text where a word is open, with font escapes in it and perhaps
one at its end. -/
def ReadsStyled (u v : Text) (ends : Bool) : Prop :=
  ∀ (isolating : Bool) (below : List Frame) (number column : Int), ∃ is, IsStyledWord v is ∧
    feedAll isolating (.unit :: below) (Token.place false number column (Lexeme.ofChunk u)) =
      ⟨is, Frame.fontEnds ends ++ .unit :: below⟩

/-- What is read in a word without font escapes is read so with them, and leaves no mark. -/
theorem Reads.readsStyled (h : Reads u v) : ReadsStyled u v false := by
  intro isolating below number column
  obtain ⟨is, his, heq⟩ := h isolating below number column
  exact ⟨is, his.isStyledWord, heq⟩

/-- Tokens on the same line make nothing of the end of a font escape. -/
theorem feedAll_fontEnds (isolating ends : Bool) (below : List Frame) (hl : t.startsLine = false) :
    feedAll isolating (Frame.fontEnds ends ++ below) (t :: ts) =
      feedAll isolating below (t :: ts) := by
  cases ends with
  | false => rfl
  | true => simp [Frame.fontEnds, feedAll, feed, Frame.react, hl]

namespace ReadsStyled

/-- A chunk that is read as a given text, with fonts in it, opens a word at the beginning of a line
of text, and leaves the word open, and perhaps the end of a font above it.

**Proof sketch.** Behind its first lexeme the chunk is read as in an open word. The first one does
on a line what it does there, behind the opening of a word. -/
theorem readLine_place {c : Char} (h : ReadsStyled (c :: u) v ends) (isolating startsLine : Bool)
    (number column : Int) : ∃ is, IsStyledWord v is ∧
      readLine isolating (Token.place startsLine number column (Lexeme.ofChunk (c :: u))) =
        ⟨.openWord :: is, Frame.fontEnds ends ++ [.unit, .line]⟩ := by
  obtain ⟨is, his, heq⟩ := h isolating [.line] number column
  obtain ⟨x, xs, hchunk, hkind⟩ := Lexeme.ofChunk_eq_cons c u
  obtain ⟨js, frames, hfeed, hline⟩ :=
    exists_line_eq hkind isolating x.value startsLine number column
  rw [hchunk] at heq ⊢
  rw [Token.place, feedAll_cons, hfeed] at heq
  obtain ⟨hout, hframes⟩ := Step.mk.inj heq
  rw [← hout] at his
  refine ⟨_, his.replace_head (j := .consume ⟨x.kind, x.value, startsLine, number, column⟩)
    rfl rfl, ?_⟩
  simp only [Token.place, readLine, hline]
  exact congrArg (Step.mk _) hframes

/-- The tokens of a chunk that is read as a given text. -/
theorem exists_word (h : ReadsStyled u v ends) (hne : u ≠ []) (hu : u.isInk = true)
    (isolating startsLine : Bool) (hpoint : startsLine = true → u.head? ≠ some '.')
    (number column : Int) :
    ∃ t ts is, Token.ofChunk u startsLine number column = t :: ts ∧ t.startsLine = startsLine ∧
      t.kind ≠ .macroName ∧ t.kind ≠ .emptyLine ∧ IsStyledWord v is ∧
        readLine isolating (t :: ts) =
          ⟨.openWord :: is, Frame.fontEnds ends ++ [.unit, .line]⟩ := by
  obtain ⟨c, u, rfl⟩ := List.exists_cons_of_ne_nil hne
  obtain ⟨is, his, heq⟩ := h.readLine_place isolating startsLine number column
  obtain ⟨x, xs, hchunk, hkind⟩ := Lexeme.ofChunk_eq_cons c u
  have htokens := Token.ofChunk_ink hu hpoint number column
  rw [hchunk, Token.place] at htokens heq
  refine ⟨_, _, is, htokens, rfl, ?_, ?_, his, heq⟩
  · rcases hkind with hk | hk | hk <;> simp [hk]
  · rcases hkind with hk | hk | hk <;> simp [hk]

end ReadsStyled

/-! ## The program of a line of text -/

/-- The chunks of a line of text, with the words that they are read as. A word has a mark where a
font escape ends it at the end of the line. -/
inductive ReadsStyledRow : List Text → List (Text × Bool) → Prop where
  | nil : ReadsStyledRow [] []
  | blank {b : Text} {ms : List Text} {ws : List (Text × Bool)} : b ≠ [] → b.isBlank = true →
      ReadsStyledRow ms ws → ReadsStyledRow (b :: ms) ws
  | word {u v : Text} {ends : Bool} {ms : List Text} {ws : List (Text × Bool)} : u ≠ [] →
      u.isInk = true → ReadsStyled u v ends → (∀ m ∈ ms.head?, Text.isInk m = false) →
      ReadsStyledRow ms ws → ReadsStyledRow (u :: ms) ((v, ends && ms.isEmpty) :: ws)

/-- A step on a line of text: the instructions for the given words, and frames that are complete at
the end of the line. -/
structure Step.IsStyledText (ws : List (Text × Bool)) (s : Step) : Prop where
  isStyledText : Manpage.IsStyledText ws s.whole
  endsAtLine : ∀ f ∈ s.frames, f.EndsAtLine

/-- What a font escape leaves waiting ends at the end of the line. -/
theorem Frame.endsAtLine_fontEnd : Frame.fontEnd.EndsAtLine := by
  intro _ t ht
  simp [react, ht, atEnd]

/-- A blank on a line of text. -/
theorem Step.IsStyledText.blank (hk : t.kind = .blank) {s : Step} (h : s.IsStyledText ws) :
    Step.IsStyledText ws ⟨(Step.line isolating t).out ++ s.out, s.frames⟩ := by
  rw [line_blank hk]
  exact ⟨.blank t t.value h.isStyledText, h.endsAtLine⟩

/-- What follows a word: a blank, which ends it, or the end of the line.

**Proof sketch.** By cases on the row. At the end of the line the end of a font leaves a space,
which counts to the word; before a blank it leaves none, and the blank closes the word. -/
theorem isStyledText_word (his : IsStyledWord v is) {number : Int} {offset : Nat}
    (hrow : ReadsStyledRow ms ws) (hms : ∀ m ∈ ms.head?, Text.isInk m = false)
    (h : (feedAll isolating [.line] (Token.ofChunks number offset ms)).IsStyledText ws) :
    let r := feedAll isolating (Frame.fontEnds ends ++ [.unit, .line])
      (Token.ofChunks number offset ms)
    Step.IsStyledText ((v, ends && ms.isEmpty) :: ws) ⟨.openWord :: is ++ r.out, r.frames⟩ := by
  cases hrow with
  | nil =>
    refine ⟨?_, ?_⟩
    · -- the word is the last of the line, and the space of its font is behind it
      have hlast := IsStyledText.last ends his
      cases ends <;>
        simpa [Step.whole, Token.ofChunks, Chunk.place, finish, Frame.atEnd, Frame.fontEnds,
          endSpace] using hlast
    · refine List.forall_mem_append.mpr ⟨fun f hf => ?_, fun f hf => endsAtLine_of_mem hf⟩
      cases ends with
      | false => exact absurd hf List.not_mem_nil
      | true => exact List.mem_singleton.mp hf ▸ Frame.endsAtLine_fontEnd
  | word hne hu => exact absurd hu (by simp [hms _ rfl])
  | @blank b ms _ hne hb _ =>
    -- a blank ends the unit, and the line goes on as it would without one
    rw [Token.ofChunks_cons, Token.ofChunk_blank hne hb, List.singleton_append] at h ⊢
    rw [feedAll_fontEnds isolating ends [.unit, .line] rfl]
    set t : Token := ⟨.blank, b, false, number, offset + 1⟩ with ht
    set ts := Token.ofChunks number (offset + b.length) ms with hts
    have hline : feedAll isolating [.line] (t :: ts) =
        ⟨.consume t :: .blank b :: (feedAll isolating [.line] ts).out,
          (feedAll isolating [.line] ts).frames⟩ := by
      simp [feedAll, feed, Frame.react, ht, line_blank]
    have hunit : feedAll isolating [.unit, .line] (t :: ts) =
        ⟨.closeScope :: .consume t :: .blank b :: (feedAll isolating [.line] ts).out,
          (feedAll isolating [.line] ts).frames⟩ := by
      simp [feedAll, feed, Frame.react, ht, line_blank]
    rw [hline] at h
    rw [hunit]
    refine ⟨?_, h.endsAtLine⟩
    cases h.isStyledText with
    | blank _ _ hrest =>
      have hword := IsStyledText.word t b his hrest
      simpa [Step.whole] using hword

/-- **Chunks behind the beginning of a line of text** are read as words with fonts in them, each of
which comes to the frame of the line.

**Proof sketch.** By induction on the row. Blanks are shown and leave the frame as it is; a word is
opened, read, and closed by what follows it. -/
theorem ReadsStyledRow.isStyledText_feedAll (h : ReadsStyledRow ms ws) (isolating : Bool)
    (number : Int) (offset : Nat) :
    (feedAll isolating [.line] (Token.ofChunks number offset ms)).IsStyledText ws := by
  induction h generalizing offset with
  | nil => exact ⟨.done, fun _ hf => endsAtLine_of_mem (List.mem_cons_of_mem _ hf)⟩
  | @blank b ms ws hne hb _ ih =>
    rw [Token.ofChunks_cons, Token.ofChunk_blank hne hb, feedAll_line (by simp)]
    exact (ih (offset + b.length)).blank rfl
  | @word u v ends ms ws hne hu hreads hms hrow ih =>
    obtain ⟨t, ts, is, htokens, hl, -, -, his, hline⟩ :=
      hreads.exists_word hne hu isolating false (fun h => Bool.noConfusion h) number (offset + 1)
    have hfollow : ∀ a ∈ (t :: ts ++ Token.ofChunks number (offset + u.length) ms).head?,
        a.startsLine = false := by
      intro a ha
      obtain rfl : t = a := by simpa using ha
      exact hl
    rw [Token.ofChunks_cons, htokens, feedAll_line hfollow, readLine_append, hline]
    exact isStyledText_word his hrow hms (ih (offset + u.length))

/-- **A line of text.** Its program begins the line, and has the instructions for its words.

**Proof sketch.** The first chunk begins the line, as it is no macro; from there on the chunks come
to the frame of the line. All frames that are left end with the line. -/
theorem ReadsStyledRow.program_eq (h : ReadsStyledRow (m :: ms) ws) (hpoint : m.head? ≠ some '.')
    (number column : Int) (offset : Nat) :
    (∃ is, program isolating
        (Token.ofChunk m true number column ++ Token.ofChunks number offset ms) =
          .beginLine :: is ∧ IsStyledText ws is) ∧
      ∀ f ∈ (feedAll isolating []
        (Token.ofChunk m true number column ++ Token.ofChunks number offset ms)).frames,
          f.EndsAtLine := by
  have hall : ∃ s : Step, s.IsStyledText ws ∧ feedAll isolating []
      (Token.ofChunk m true number column ++ Token.ofChunks number offset ms) =
        ⟨.beginLine :: s.out, s.frames⟩ := by
    cases h with
    | blank hne hb hrow =>
      rw [Token.ofChunk_blank hne hb, List.singleton_append,
        feedAll_nil_line rfl (by simp) (by simp)]
      exact ⟨_, (hrow.isStyledText_feedAll isolating number offset).blank rfl, rfl⟩
    | word hne hu hreads hms hrow =>
      obtain ⟨t, ts, is, htokens, hl, hk, hk', his, hline⟩ :=
        hreads.exists_word hne hu isolating true (fun _ => hpoint) number column
      rw [htokens, List.cons_append, feedAll_nil_line hl hk hk', ← List.cons_append,
        readLine_append, hline]
      exact ⟨_, isStyledText_word his hrow hms (hrow.isStyledText_feedAll isolating number offset),
        rfl⟩
  obtain ⟨s, hs, heq⟩ := hall
  refine ⟨⟨s.whole, ?_, hs.isStyledText⟩, ?_⟩
  · rw [program, programFrom_eq, heq]
    rfl
  · rw [heq]
    exact hs.endsAtLine

end Manpage

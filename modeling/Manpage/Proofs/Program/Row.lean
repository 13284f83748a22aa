import Manpage.Proofs.Program.Word

/-!
# Lines of text, part by part

A line of text is a row of blanks and words. Its program shows them one after another, the words as
what their chunks are read as and the blanks as they are, and nothing between them.

## Main definitions

* `Manpage.Part` — a blank or a word of a line.
* `Manpage.IsRow` — the instructions from some point of a line of text on, with the parts there.
* `Manpage.ReadsRow` — the chunks of a line, with the parts that they are read as.
* `Manpage.Token.ofChunks` — the tokens of chunks that do not begin a line.

## Main results

* `Manpage.ReadsRow.isRow_feedAll` — what the chunks behind the beginning of a line are read as.
* `Manpage.ReadsRow.program_eq` — the program of a line of text.
-/

namespace Manpage

variable {isolating : Bool} {t : Token} {ts : List Token} {u v m : Text} {ms : List Text}

/-! ## Parts of a line -/

/-- A part of a line of text, as it is shown. -/
inductive Part where
  | blank (text : Text)
  | word (text : Text)

/-- The characters of a part. -/
def Part.text : Part → Text
  | blank text | word text => text

/-- The instructions from some point of a line of text on, where no word is open, with the parts
that are still to come. -/
inductive IsRow : List Part → List Instr → Prop where
  | done : IsRow [] [.endLine]
  | blank (t : Token) (b : Text) {ps : List Part} {is : List Instr} : IsRow ps is →
      IsRow (.blank b :: ps) (.consume t :: .blank b :: is)
  | word {v : Text} {ps : List Part} {is js : List Instr} : IsWord v is → IsRow ps js →
      IsRow (.word v :: ps) (.openWord :: is ++ .closeScope :: js)

/-- The chunks of a line of text, with the parts that they are read as. -/
inductive ReadsRow : List Text → List Part → Prop where
  | nil : ReadsRow [] []
  | blank {b : Text} {ms : List Text} {ps : List Part} : b ≠ [] → b.isBlank = true →
      ReadsRow ms ps → ReadsRow (b :: ms) (.blank b :: ps)
  | word {u v : Text} {ms : List Text} {ps : List Part} : u ≠ [] → u.isInk = true → Reads u v →
      (∀ m ∈ ms.head?, Text.isInk m = false) → ReadsRow ms ps →
      ReadsRow (u :: ms) (.word v :: ps)

/-! ## Tokens of chunks -/

/-- The tokens of chunks that do not begin a line. -/
def Token.ofChunks (number : Int) (offset : Nat) (ms : List Text) : List Token :=
  (Chunk.place offset ms).flatMap fun chunk =>
    Token.ofChunk chunk.text false number (chunk.offset + 1)

/-- The tokens of chunks that are placed are those of the first chunk and those of the others, which
are placed behind it. -/
theorem Token.ofChunks_cons (number : Int) (offset : Nat) (m : Text) (ms : List Text) :
    Token.ofChunks number offset (m :: ms) =
      Token.ofChunk m false number (offset + 1) ++
        Token.ofChunks number (offset + m.length) ms := by
  simp only [Token.ofChunks, Chunk.place, List.flatMap_cons]

/-- The token of a blank chunk. A blank is no point, so no macro is named. -/
theorem Token.ofChunk_blank (hne : m ≠ []) (hm : m.isBlank = true) (startsLine : Bool)
    (number column : Int) :
    Token.ofChunk m startsLine number column = [⟨.blank, m, startsLine, number, column⟩] := by
  obtain ⟨c, u, rfl⟩ := List.exists_cons_of_ne_nil hne
  have hc : isSpace c = true := Text.isBlank_iff.mp hm c List.mem_cons_self
  have hpoint : (c == '.') = false := by
    rw [beq_eq_false_iff_ne]
    rintro rfl
    exact absurd hc (by decide)
  simp [Token.ofChunk, Token.lexemes, hc, hpoint, Token.place]

/-- The tokens of a chunk of ink that is not the name of a macro. The lexemes of the chunk are
placed one after another. -/
theorem Token.ofChunk_ink (hm : m.isInk = true) {startsLine : Bool}
    (hpoint : startsLine = true → m.head? ≠ some '.') (number column : Int) :
    Token.ofChunk m startsLine number column =
      Token.place startsLine number column (Lexeme.ofChunk m) := by
  cases m with
  | nil => simp [Token.ofChunk, Token.lexemes, Lexeme.ofChunk]
  | cons c u =>
    have hc : isSpace c = false := Text.isInk_iff.mp hm c List.mem_cons_self
    have hname : (startsLine && c == '.') = false := by
      cases startsLine with
      | false => rfl
      | true => simpa using hpoint rfl
    simp [Token.ofChunk, Token.lexemes, hc, hname]

/-- The tokens of a line that is neither blank nor a comment: those of its first chunk, and those
of the others. -/
theorem Token.ofLine_of_splitBy {line : Text} (hblank : line.isBlank = false)
    (h : line.splitBy sameChunk = m :: ms) (hcomment : isComment m = false) (number : Nat) :
    Token.ofLine number line =
      Token.ofChunk m true number 1 ++ Token.ofChunks number m.length ms := by
  have hnot : ¬ line.isBlank = true := by simp [hblank]
  simp only [Token.ofLine, if_neg hnot, Chunk.ofLine, h, Chunk.place, hcomment, Token.ofChunks]
  simp

/-! ## Tokens on a line of text -/

/-- Tokens read on a line of text. The first of them may be that of the line. -/
def readLine (isolating : Bool) : List Token → Step
  | [] => ⟨[], [.line]⟩
  | t :: ts =>
    let r := feedAll isolating (Step.line isolating t).frames ts
    ⟨(Step.line isolating t).out ++ r.out, r.frames⟩

/-- Tokens that follow on a line of text. -/
theorem feedAll_line (hts : ∀ t ∈ ts.head?, t.startsLine = false) :
    feedAll isolating [.line] ts = readLine isolating ts := by
  cases ts with
  | nil => rfl
  | cons t ts =>
    have ht : t.startsLine = false := hts t rfl
    simp [feedAll, feed, Frame.react, ht, readLine]

/-- The first token of a line of text. It begins the line and is read as one of its tokens. -/
theorem feedAll_nil_line (ht : t.startsLine = true) (hk : t.kind ≠ .macroName)
    (hk' : t.kind ≠ .emptyLine) : feedAll isolating [] (t :: ts) =
      ⟨.beginLine :: (readLine isolating (t :: ts)).out,
        (readLine isolating (t :: ts)).frames⟩ := by
  have htop : Step.top isolating t = (Step.line isolating t).preceded .beginLine := by
    unfold Step.top
    rw [if_pos ht]
    cases hkind : t.kind <;> first | rfl | contradiction
  simp [feedAll, feed, htop, Step.preceded, readLine]

/-- A blank on a line of text. -/
theorem line_blank (hk : t.kind = .blank) :
    Step.line isolating t = ⟨[.consume t, .blank t.value], [.line]⟩ := by
  simp [Step.line, Step.run, Step.word, Step.above, hk]

/-- The first token of a word opens it. Beyond that, and but for the record of it, nothing depends
on whether it is the first of its line. -/
theorem exists_line_eq {k : TokenKind} (hk : k = .word ∨ k = .quote ∨ k = .backslash)
    (isolating : Bool) (value : Text) (startsLine : Bool) (number column : Int) :
    ∃ is frames, feed isolating [.unit, .line] ⟨k, value, false, number, column⟩ =
        ⟨.consume ⟨k, value, false, number, column⟩ :: is, frames⟩ ∧
      Step.line isolating ⟨k, value, startsLine, number, column⟩ =
        ⟨.openWord :: .consume ⟨k, value, startsLine, number, column⟩ :: is, frames⟩ := by
  rcases hk with rfl | rfl | rfl
  · exact ⟨_, _, rfl, rfl⟩
  · exact ⟨_, _, rfl, rfl⟩
  · exact ⟨_, _, rfl, rfl⟩

/-- A chunk that is read as a given text opens a word at the beginning of a line of text, and leaves
the word open.

**Proof sketch.** Behind its first lexeme the chunk is read as in an open word. The first one does
on a line what it does there, behind the opening of a word. -/
theorem Reads.readLine_place {c : Char} (h : Reads (c :: u) v) (isolating startsLine : Bool)
    (number column : Int) : ∃ is, IsWord v is ∧
      readLine isolating (Token.place startsLine number column (Lexeme.ofChunk (c :: u))) =
        ⟨.openWord :: is, [.unit, .line]⟩ := by
  obtain ⟨is, his, heq⟩ := h isolating [.line] number column
  obtain ⟨x, xs, hchunk, hkind⟩ := Lexeme.ofChunk_eq_cons c u
  obtain ⟨js, frames, hfeed, hline⟩ :=
    exists_line_eq hkind isolating x.value startsLine number column
  rw [hchunk] at heq ⊢
  rw [Token.place, feedAll_cons, hfeed] at heq
  obtain ⟨hout, hframes⟩ := Step.mk.inj heq
  rw [← hout] at his
  refine ⟨_, (IsWord.of_record rfl his).record
    (i := .consume ⟨x.kind, x.value, startsLine, number, column⟩) rfl, ?_⟩
  simp only [Token.place, readLine, hline]
  exact congrArg (Step.mk _) hframes

/-- The tokens of a chunk that is read as a given text. The first lexeme of ink is a word, a quote
or a backslash, so it names no macro. -/
theorem Reads.exists_word (h : Reads u v) (hne : u ≠ []) (hu : u.isInk = true)
    (isolating startsLine : Bool) (hpoint : startsLine = true → u.head? ≠ some '.')
    (number column : Int) :
    ∃ t ts is, Token.ofChunk u startsLine number column = t :: ts ∧ t.startsLine = startsLine ∧
      t.kind ≠ .macroName ∧ t.kind ≠ .emptyLine ∧ IsWord v is ∧
        readLine isolating (t :: ts) = ⟨.openWord :: is, [.unit, .line]⟩ := by
  obtain ⟨c, u, rfl⟩ := List.exists_cons_of_ne_nil hne
  obtain ⟨is, his, heq⟩ := h.readLine_place isolating startsLine number column
  obtain ⟨x, xs, hchunk, hkind⟩ := Lexeme.ofChunk_eq_cons c u
  have htokens := Token.ofChunk_ink hu hpoint number column
  rw [hchunk, Token.place] at htokens heq
  refine ⟨_, _, is, htokens, rfl, ?_, ?_, his, heq⟩
  · rcases hkind with hk | hk | hk <;> simp [hk]
  · rcases hkind with hk | hk | hk <;> simp [hk]

/-! ## The program of a line of text -/

/-- Tokens read on a line of text, and others that follow on the line. -/
theorem readLine_append (t : Token) (ts us : List Token) :
    readLine isolating (t :: ts ++ us) =
      ⟨(readLine isolating (t :: ts)).out ++
          (feedAll isolating (readLine isolating (t :: ts)).frames us).out,
        (feedAll isolating (readLine isolating (t :: ts)).frames us).frames⟩ := by
  simp only [List.cons_append, readLine, feedAll_append, List.append_assoc]

/-- The instructions of a step, and those of the frames that it leaves at the end. -/
def Step.whole (s : Step) : List Instr :=
  s.out ++ finish s.frames

/-- A unit and a line of text end at the end of a line. -/
theorem endsAtLine_of_mem {f : Frame} (h : f ∈ [Frame.unit, .line]) : f.EndsAtLine := by
  simp only [List.mem_cons, List.not_mem_nil, or_false] at h
  rcases h with rfl | rfl
  · exact Frame.endsAtLine_unit
  · exact Frame.endsAtLine_line

variable {ps : List Part}

/-- A step on a line of text: the instructions for the given parts, and frames that are complete at
the end of the line. -/
structure Step.IsRow (ps : List Part) (s : Step) : Prop where
  isRow : Manpage.IsRow ps s.whole
  endsAtLine : ∀ f ∈ s.frames, f.EndsAtLine

/-- The end of a line of text. -/
theorem isRow_feedAll_nil : (feedAll isolating [.line] []).IsRow [] :=
  ⟨IsRow.done, fun _ hf => endsAtLine_of_mem (List.mem_cons_of_mem _ hf)⟩

/-- A blank on a line of text. It stands for a space, and the line goes on. -/
theorem isRow_feedAll_blank (hk : t.kind = .blank) (hl : t.startsLine = false)
    (h : (feedAll isolating [.line] ts).IsRow ps) :
    (feedAll isolating [.line] (t :: ts)).IsRow (.blank t.value :: ps) := by
  have heq : feedAll isolating [.line] (t :: ts) =
      ⟨[.consume t, .blank t.value] ++ (feedAll isolating [.line] ts).out,
        (feedAll isolating [.line] ts).frames⟩ := by
    simp [feedAll, feed, Frame.react, hl, line_blank hk]
  rw [heq]
  exact ⟨IsRow.blank t t.value h.isRow, h.endsAtLine⟩

/-- What follows a word: a blank, which ends it, or the end of the line.

**Proof sketch.** By cases on the row. The blank behind a word is passed on by the word, which
closes, and taken by the line, as it would be without the word. -/
theorem isRow_word {is : List Instr} (his : IsWord v is) {number : Int} {offset : Nat}
    (hrow : ReadsRow ms ps) (hms : ∀ m ∈ ms.head?, Text.isInk m = false)
    (h : (feedAll isolating [.line] (Token.ofChunks number offset ms)).IsRow ps) :
    Step.IsRow (.word v :: ps)
      ⟨.openWord :: is ++ (feedAll isolating [.unit, .line] (Token.ofChunks number offset ms)).out,
        (feedAll isolating [.unit, .line] (Token.ofChunks number offset ms)).frames⟩ := by
  cases hrow with
  | nil =>
    refine ⟨?_, fun f hf => endsAtLine_of_mem hf⟩
    have hlast := IsRow.word his IsRow.done
    simpa [Step.whole, Token.ofChunks, Chunk.place, finish, Frame.atEnd] using hlast
  | word hne hu => exact absurd hu (by simp [hms _ rfl])
  | @blank b ms _ hne hb _ =>
    rw [Token.ofChunks_cons, Token.ofChunk_blank hne hb] at h ⊢
    obtain ⟨hrest, hends⟩ := h
    set t : Token := ⟨.blank, b, false, number, offset + 1⟩ with ht
    set ts := Token.ofChunks number (offset + b.length) ms with hts
    have hline : feedAll isolating [.line] ([t] ++ ts) =
        ⟨.consume t :: .blank b :: (feedAll isolating [.line] ts).out,
          (feedAll isolating [.line] ts).frames⟩ := by
      simp [feedAll, feed, Frame.react, ht, line_blank]
    have hunit : feedAll isolating [.unit, .line] ([t] ++ ts) =
        ⟨.closeScope :: .consume t :: .blank b :: (feedAll isolating [.line] ts).out,
          (feedAll isolating [.line] ts).frames⟩ := by
      simp [feedAll, feed, Frame.react, ht, line_blank]
    rw [hline] at hrest hends
    rw [hunit]
    refine ⟨?_, hends⟩
    have hword := IsRow.word his hrest
    simpa [Step.whole] using hword

/-- **Chunks behind the beginning of a line of text** are read as a row of words and blanks, each of
which comes to the frame of the line.

**Proof sketch.** By induction on the row. Blanks are shown and leave the frame as it is; a word is
opened, read, and closed by what follows it. -/
theorem ReadsRow.isRow_feedAll (h : ReadsRow ms ps) (isolating : Bool) (number : Int)
    (offset : Nat) :
    (feedAll isolating [.line] (Token.ofChunks number offset ms)).IsRow ps := by
  induction h generalizing offset with
  | nil => exact isRow_feedAll_nil
  | @blank b ms ps hne hb _ ih =>
    rw [Token.ofChunks_cons, Token.ofChunk_blank hne hb]
    exact isRow_feedAll_blank (t := ⟨.blank, b, false, number, offset + 1⟩) rfl rfl
      (ih (offset + b.length))
  | @word u v ms ps hne hu hreads hms hrow ih =>
    obtain ⟨t, ts, is, htokens, hl, -, -, his, hline⟩ :=
      hreads.exists_word hne hu isolating false (fun h => Bool.noConfusion h) number (offset + 1)
    have hfollow : ∀ a ∈ (t :: ts ++ Token.ofChunks number (offset + u.length) ms).head?,
        a.startsLine = false := by
      intro a ha
      obtain rfl : t = a := by simpa using ha
      exact hl
    rw [Token.ofChunks_cons, htokens, feedAll_line hfollow, readLine_append, hline]
    exact isRow_word his hrow hms (ih (offset + u.length))

/-- **A line of text.** Its program begins the line, and has the instructions for its parts.

**Proof sketch.** The first chunk begins the line, as it is no macro; from there on the chunks come
to the frame of the line. All frames that are left end with the line. -/
theorem ReadsRow.program_eq (h : ReadsRow (m :: ms) ps) (hpoint : m.head? ≠ some '.')
    (number column : Int) (offset : Nat) :
    (∃ is, program isolating
        (Token.ofChunk m true number column ++ Token.ofChunks number offset ms) =
          .beginLine :: is ∧ IsRow ps is) ∧
      ∀ f ∈ (feedAll isolating []
        (Token.ofChunk m true number column ++ Token.ofChunks number offset ms)).frames,
          f.EndsAtLine := by
  have hall : ∃ s : Step, s.IsRow ps ∧ feedAll isolating []
      (Token.ofChunk m true number column ++ Token.ofChunks number offset ms) =
        ⟨.beginLine :: s.out, s.frames⟩ := by
    cases h with
    | blank hne hb hrow =>
      have hrest := hrow.isRow_feedAll isolating number offset
      rw [Token.ofChunk_blank hne hb, List.singleton_append,
        feedAll_nil_line rfl (by simp) (by simp)]
      refine ⟨_, ?_, rfl⟩
      simp only [readLine, line_blank]
      exact ⟨IsRow.blank _ m hrest.isRow, hrest.endsAtLine⟩
    | word hne hu hreads hms hrow =>
      obtain ⟨t, ts, is, htokens, hl, hk, hk', his, hline⟩ :=
        hreads.exists_word hne hu isolating true (fun _ => hpoint) number column
      rw [htokens, List.cons_append, feedAll_nil_line hl hk hk', ← List.cons_append,
        readLine_append, hline]
      exact ⟨_, isRow_word his hrow hms (hrow.isRow_feedAll isolating number offset), rfl⟩
  obtain ⟨s, hs, heq⟩ := hall
  refine ⟨⟨s.whole, ?_, hs.isRow⟩, ?_⟩
  · rw [program, programFrom_eq, heq]
    rfl
  · rw [heq]
    exact hs.endsAtLine

end Manpage

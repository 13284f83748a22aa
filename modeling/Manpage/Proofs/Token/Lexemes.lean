import Manpage.Proofs.Program.Row
import Manpage.Proofs.Token.Call
import Manpage.Proofs.Token.First

/-!
# The lexemes of a line

What the tokens of a line amount to depends on their lexemes, and not on where they stand. The
lexemes of a line are those of its chunks, so a line of words is taken apart word by word.

## Main definitions

* `Manpage.Token.lexeme` — a token without its place.
* `Manpage.Lexeme.ofText` — the lexemes of a text that does not begin with the name of a macro.

## Main results

* `Manpage.Lexeme.ofText_append`, `Manpage.Lexeme.ofText_space` — words and the spaces before them.
* `Manpage.Token.map_lexeme_ofLine` — the lexemes of a line of text.
* `Manpage.Token.exists_ofLine_macroName` — a line that calls a macro.
-/

namespace Manpage

variable {u w rest line : Text} {ms : List Text}

/-- A token without its place. -/
def Token.lexeme (t : Token) : Lexeme :=
  ⟨t.kind, t.value⟩

namespace Lexeme

/-- The lexemes of a text that does not begin with the name of a macro. -/
def ofText (t : Text) : List Lexeme :=
  (t.splitBy sameChunk).flatMap (Token.lexemes false)

/-- An empty text has no lexemes. -/
theorem ofText_nil : ofText [] = [] := rfl

/-- The lexemes of a chunk of ink that starts no line are those of a sentence: it is no blank, and
it cannot be the name of a macro. -/
theorem lexemes_of_isInk (h : u.isInk = true) : Token.lexemes false u = ofChunk u := by
  cases u with
  | nil => simp [Token.lexemes, ofChunk]
  | cons c u =>
    have hc : isSpace c = false := Text.isInk_iff.mp h c List.mem_cons_self
    simp [Token.lexemes, hc]

/-- A chunk of ink before a space, or at the end. -/
theorem ofText_append (hne : u ≠ []) (hink : u.isInk = true)
    (hrest : ∀ d ∈ rest.head?, isSpace d = true) :
    ofText (u ++ rest) = ofChunk u ++ ofText rest := by
  rw [ofText, splitBy_ink_append hne hink hrest, List.flatMap_cons, lexemes_of_isInk hink, ofText]

/-- Blanks before ink, or at the end. Each of their chunks is one lexeme. -/
theorem ofText_blank (hu : u.isBlank = true) (hrest : ∀ d ∈ rest.head?, isSpace d = false) :
    ofText (u ++ rest) = (u.splitBy sameChunk).map (⟨.blank, ·⟩) ++ ofText rest := by
  have hchunks : (u.splitBy sameChunk).flatMap (Token.lexemes false) =
      (u.splitBy sameChunk).map (⟨.blank, ·⟩) := by
    rw [List.map_eq_flatMap]
    refine List.flatMap_congr fun m hm => ?_
    obtain ⟨c, m, rfl⟩ := List.exists_cons_of_ne_nil (List.ne_nil_of_mem_splitBy hm)
    have hc := Text.isBlank_iff.mp (isBlank_of_mem_splitBy hu hm) c List.mem_cons_self
    simp [Token.lexemes, hc]
  rw [ofText, splitBy_blank_append hu hrest, List.flatMap_append, hchunks, ofText]

/-- A space before ink, or at the end. -/
theorem ofText_space (hrest : ∀ d ∈ rest.head?, isSpace d = false) :
    ofText (' ' :: rest) = ⟨.blank, [' ']⟩ :: ofText rest :=
  ofText_blank (u := [' ']) rfl hrest

/-- Ink at the start of a text is taken apart on its own. Ink and what is not ink are in different
chunks. -/
theorem ofText_eq (u : Text) :
    ofText u = ofChunk (u.takeWhile fun c => !isSpace c) ++
      ofText (u.dropWhile fun c => !isSpace c) := by
  have hhead : ∀ d ∈ (u.dropWhile fun c => !isSpace c).head?, isSpace d = true := by
    intro d hd
    have hnot := List.head?_dropWhile_not (fun c => !isSpace c) u
    rw [Option.mem_def.mp hd] at hnot
    simpa using hnot
  by_cases hnil : (u.takeWhile fun c => !isSpace c) = []
  · have hall : (u.dropWhile fun c => !isSpace c) = u := by
      have happend := List.takeWhile_append_dropWhile (p := fun c => !isSpace c) (l := u)
      rwa [hnil] at happend
    rw [hnil, hall, ofChunk, List.nil_append]
  · rw [← ofText_append hnil List.all_takeWhile hhead, List.takeWhile_append_dropWhile]

/-- A plain word, and a quote behind it or nothing. The run of plain characters ends before the
quote. -/
theorem ofChunk_plain_append (hne : w ≠ []) (hw : ∀ c ∈ w, isPlain c = true)
    (hrest : ∀ d ∈ rest.head?, isPlain d = false) :
    ofChunk (w ++ rest) = ⟨.word, w⟩ :: ofChunk rest := by
  obtain ⟨c, u, rfl⟩ := List.exists_cons_of_ne_nil hne
  obtain ⟨hc, hu⟩ := List.forall_mem_cons.mp hw
  have hend : rest.takeWhile isPlain = [] ∧ rest.dropWhile isPlain = rest := by
    cases rest with
    | nil => exact ⟨rfl, rfl⟩
    | cons d rest =>
      have hd : ¬ isPlain d = true := by simp [hrest d rfl]
      exact ⟨List.takeWhile_cons_of_neg hd, List.dropWhile_cons_of_neg hd⟩
  rw [List.cons_append, ofChunk_plain hc, List.takeWhile_append_of_pos hu,
    List.dropWhile_append_of_pos hu, hend.1, hend.2, List.append_nil]

/-- A quote before other characters of a chunk. -/
theorem ofChunk_quote (u : Text) : ofChunk ('"' :: u) = ⟨.quote, ['"']⟩ :: ofChunk u := by
  rw [ofChunk]
  rfl

/-- A quote stands alone. -/
theorem ofText_quote (u : Text) : ofText ('"' :: u) = ⟨.quote, ['"']⟩ :: ofText u := by
  have htake : List.takeWhile (fun c => !isSpace c) ('"' :: u) =
      '"' :: u.takeWhile fun c => !isSpace c := List.takeWhile_cons_of_pos rfl
  have hdrop : List.dropWhile (fun c => !isSpace c) ('"' :: u) =
      u.dropWhile fun c => !isSpace c := List.dropWhile_cons_of_pos rfl
  rw [ofText_eq, htake, hdrop, ofChunk_quote, List.cons_append, ← ofText_eq]

/-- A plain word before a blank or a quote, or at the end. The word is the beginning of a chunk up
to there, and all of its characters are plain. -/
theorem ofText_word (hne : w ≠ []) (hink : w.isInk = true) (hw : ∀ c ∈ w, isPlain c = true)
    (hrest : ∀ d ∈ rest.head?, isSpace d = true ∨ isPlain d = false) :
    ofText (w ++ rest) = ⟨.word, w⟩ :: ofText rest := by
  have hall : ∀ c ∈ w, (!isSpace c) = true := by
    intro c hc
    rw [Text.isInk_iff.mp hink c hc]
    rfl
  have hnext : ∀ d ∈ (rest.takeWhile fun c => !isSpace c).head?, isPlain d = false := by
    cases rest with
    | nil => simp
    | cons d rest =>
      rcases hrest d rfl with hd | hd
      · simp [hd]
      · cases hs : isSpace d with
        | true => simp [hs]
        | false => simpa [hs] using hd
  rw [ofText_eq, List.takeWhile_append_of_pos hall, List.dropWhile_append_of_pos hall,
    ofChunk_plain_append hne hw hnext, List.cons_append, ← ofText_eq]

/-! ## Plain text -/

/-- A blank stands for itself, since it is neither a backslash nor a quote. -/
theorem isPlain_of_isSpace {c : Char} (h : isSpace c = true) : isPlain c = true := by
  unfold isPlain
  rw [Bool.and_eq_true, bne_iff_ne, bne_iff_ne]
  refine ⟨?_, ?_⟩ <;>
  · rintro rfl
    exact Bool.noConfusion h

/-- The lexeme of a chunk of plain characters. -/
def ofPlain (m : Text) : Lexeme :=
  if m.isBlank then ⟨.blank, m⟩ else ⟨.word, m⟩

/-- A text without backslashes and quotes has one lexeme for each of its chunks, a word or a blank.
-/
theorem flatMap_lexemes_splitBy (hu : ∀ c ∈ u, isPlain c = true) :
    (u.splitBy sameChunk).flatMap (Token.lexemes false) = (u.splitBy sameChunk).map ofPlain := by
  rw [List.map_eq_flatMap]
  refine List.flatMap_congr fun m hm => ?_
  have hne : m ≠ [] := List.ne_nil_of_mem_splitBy hm
  rcases isBlank_or_isInk_of_isChain (List.isChain_of_mem_splitBy hm) with hb | hk
  · obtain ⟨c, m, rfl⟩ := List.exists_cons_of_ne_nil hne
    have hc := Text.isBlank_iff.mp hb c List.mem_cons_self
    simp [Token.lexemes, ofPlain, hb, hc]
  · have hend : ∀ d ∈ ([] : Text).head?, isPlain d = false := by simp
    have hword := ofChunk_plain_append hne (fun c hc => hu c (mem_of_mem_splitBy hm hc)) hend
    rw [List.append_nil, ofChunk] at hword
    rw [lexemes_of_isInk hk, hword, ofPlain, Text.isBlank_eq_false_of_isInk hk hne]
    rfl

/-- The ink at the end of a text. It is the longest end of the text without a blank, and so a blank
stands before it, or nothing. -/
theorem exists_eq_append_ink (u : Text) :
    ∃ b w : Text, u = b ++ w ∧ w.isInk = true ∧ ∀ c ∈ b.getLast?, isSpace c = true := by
  refine ⟨u.rdropWhile fun c => !isSpace c, u.rtakeWhile fun c => !isSpace c,
    (List.rdropWhile_append_rtakeWhile ..).symm, ?_, ?_⟩
  · rw [Text.isInk_iff]
    intro c hc
    simpa using List.mem_rtakeWhile_imp hc
  · intro c hc
    obtain ⟨hne, rfl⟩ := List.mem_getLast?_eq_getLast hc
    simpa using List.rdropWhile_last_not (fun c => !isSpace c) u hne

/-- **The lexemes of plain text** before a quote, or at the end, are its chunks.

**Proof sketch.** Only the ink at the end of the text can share a chunk with what follows. -/
theorem ofText_plain (hu : ∀ c ∈ u, isPlain c = true)
    (hrest : ∀ d ∈ rest.head?, isPlain d = false) :
    ofText (u ++ rest) = (u.splitBy sameChunk).map ofPlain ++ ofText rest := by
  obtain ⟨b, w, rfl, hink, hb⟩ := exists_eq_append_ink u
  obtain ⟨hbp, hwp⟩ := List.forall_mem_append.mp hu
  have hinkRest : ∀ d ∈ rest.head?, isSpace d = false := by
    intro d hd
    by_contra hs
    exact absurd (hrest d hd) (by simp [isPlain_of_isSpace (by simpa using hs)])
  have hcut : ∀ v : Text, (∀ d ∈ v.head?, isSpace d = false) →
      (b ++ v).splitBy sameChunk = b.splitBy sameChunk ++ v.splitBy sameChunk := by
    intro v hv
    refine splitBy_append_of_isSpace fun c hc d hd => ?_
    simp [hb c hc, hv d hd]
  have hw : ofText (w ++ rest) = (w.splitBy sameChunk).map ofPlain ++ ofText rest := by
    by_cases hne : w = []
    · subst hne
      rfl
    · rw [ofText_word hne hink hwp fun d hd => Or.inr (hrest d hd),
        List.splitBy_of_isChain hne (isChain_of_isInk hink), List.map_singleton, ofPlain,
        Text.isBlank_eq_false_of_isInk hink hne]
      rfl
  have hnext : ∀ d ∈ (w ++ rest).head?, isSpace d = false := by
    cases w with
    | nil => exact hinkRest
    | cons c w =>
      intro d hd
      obtain rfl : c = d := by simpa using hd
      exact Text.isInk_iff.mp hink c List.mem_cons_self
  have hhead : ∀ d ∈ w.head?, isSpace d = false := fun d hd =>
    Text.isInk_iff.mp hink d (List.mem_of_mem_head? hd)
  rw [List.append_assoc, ofText, hcut _ hnext, List.flatMap_append, flatMap_lexemes_splitBy hbp,
    ← ofText, hw, hcut w hhead, List.map_append, List.append_assoc]

end Lexeme

namespace Token

variable {startsLine : Bool} {number column : Int}

/-- The lexemes of tokens that are made of lexemes are these again, wherever the tokens are placed.
-/
theorem map_lexeme_place (startsLine : Bool) (number column : Int) (xs : List Lexeme) :
    (place startsLine number column xs).map lexeme = xs := by
  induction xs generalizing startsLine column with
  | nil => rfl
  | cons x xs ih => rw [place, List.map_cons, ih]; rfl

/-- The lexemes of the tokens of chunks are those of the texts of the chunks, one after another. -/
theorem map_lexeme_ofChunks (number : Int) (offset : Nat) (ms : List Text) :
    (ofChunks number offset ms).map lexeme = ms.flatMap (lexemes false) := by
  induction ms generalizing offset with
  | nil => rfl
  | cons m ms ih =>
    rw [ofChunks_cons, List.map_append, ih, ofChunk, map_lexeme_place, List.flatMap_cons]

/-- **The lexemes of a line of text** are those of its chunks.

**Proof sketch.** The line is no comment and calls no macro, so that its first chunk is read as all
the others are. -/
theorem map_lexeme_ofLine (number : Nat) (hblank : line.isBlank = false)
    (hcomment : isCommentLine line = false) (hpoint : line.head? ≠ some '.') :
    (ofLine number line).map lexeme = Lexeme.ofText line := by
  unfold Lexeme.ofText
  cases hsplit : line.splitBy sameChunk with
  | nil =>
    obtain rfl : line = [] := by
      have hflatten := List.flatten_splitBy sameChunk line
      rw [hsplit] at hflatten
      exact hflatten.symm
    exact Bool.noConfusion hblank
  | cons m ms =>
    have hfirst : isComment m = false := by
      rw [isCommentLine, Chunk.ofLine, hsplit] at hcomment
      exact hcomment
    have hm : m ≠ [] :=
      List.ne_nil_of_mem_splitBy (r := sameChunk) (hsplit ▸ List.mem_cons_self)
    have hhead : m.head? = line.head? := by
      rw [← List.flatten_splitBy sameChunk line, hsplit, List.flatten_cons,
        List.head?_append_of_ne_nil _ hm]
    have hlexemes : lexemes true m = lexemes false m := by
      obtain ⟨c, u, rfl⟩ := List.exists_cons_of_ne_nil hm
      have hc : (c == '.') = false := by
        rw [beq_eq_false_iff_ne]
        rintro rfl
        exact hpoint hhead.symm
      simp [lexemes, hc]
    rw [ofLine_of_splitBy hblank hsplit hfirst, List.map_append, map_lexeme_ofChunks, ofChunk,
      map_lexeme_place, hlexemes, List.flatMap_cons]

/-- **A line that calls a macro**: its name, and the lexemes of what follows.

**Proof sketch.** The name is the first chunk, since what follows begins with a blank. It begins
with the point and is no comment, so that it is a macro. -/
theorem exists_ofLine_macroName (number : Nat) (name rest : Text) (hname : name.isInk = true)
    (hpoint : name.head? = some '.') (hcomment : isComment name = false)
    (hrest : ∀ d ∈ rest.head?, isSpace d = true) :
    ∃ t ts, ofLine number (name ++ rest) = t :: ts ∧ t.kind = .macroName ∧ t.value = name ∧
      t.startsLine = true ∧ (∀ u ∈ ts, u.startsLine = false) ∧
      ts.map lexeme = Lexeme.ofText rest := by
  have hne : name ≠ [] := by
    rintro rfl
    exact absurd hpoint (by simp)
  have hblank : (name ++ rest).isBlank = false := by
    rw [Text.isBlank_append, Text.isBlank_eq_false_of_isInk hname hne, Bool.false_and]
  have hline : ofLine number (name ++ rest) =
      ⟨.macroName, name, true, number, 1⟩ ::
        ofChunks number name.length (rest.splitBy sameChunk) := by
    rw [ofLine_of_splitBy hblank (splitBy_ink_append hne hname hrest) hcomment,
      ofChunk_point hpoint, List.singleton_append]
  obtain ⟨-, hts⟩ := startsLine_of_ofLine_eq_cons hline
  exact ⟨_, _, hline, rfl, rfl, rfl, hts, map_lexeme_ofChunks number name.length _⟩

end Token

end Manpage

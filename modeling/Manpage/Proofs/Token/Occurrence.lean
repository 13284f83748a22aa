import Manpage.Proofs.Token.Call
import Manpage.Proofs.Token.Value

/-!
# Chunks of a source

A chunk of ink on a line of a source has tokens of its own, between those of what stands before it
and those of what follows. All but the first of them lie within the chunk, and what comes before
the first is a blank, unless it starts its line.

## Main definitions

* `Manpage.Chunk.Occurrence` — a chunk of ink of a source, with its place.
* `Manpage.Chunk.Occurrence.tokens` — the tokens of the chunk, with
  `Manpage.Chunk.Occurrence.tokensBefore` and `Manpage.Chunk.Occurrence.tokensAfter`.
* `Manpage.Token.BeginsWord`, `Manpage.Token.IsWithin` — the first token of a chunk, and the others.

## Main results

* `Manpage.Chunk.Occurrence.ofSource_eq` — the tokens of the source fall into three parts.
* `Manpage.Chunk.Occurrence.tokens_cases` — the tokens of a chunk.
* `Manpage.Chunk.Occurrence.tokensBefore_cases` — what comes before them.
-/

namespace Manpage

variable {source : Text}

/-! ## The tokens of chunks -/

namespace Token

/-- The tokens of chunks of one line, the first of which may start it. -/
def ofPlaced (number : Nat) (startsLine : Bool) : List Chunk → List Token
  | [] => []
  | c :: more =>
    ofChunk c.text startsLine number (c.offset + 1) ++ ofPlaced number false more

/-- Where no chunk starts the line, the tokens of chunks are those of each chunk, side by side. -/
theorem ofPlaced_false (number : Nat) (cs : List Chunk) :
    ofPlaced number false cs =
      cs.flatMap fun c => ofChunk c.text false number (c.offset + 1) := by
  induction cs with
  | nil => rfl
  | cons c cs ih => rw [ofPlaced, List.flatMap_cons, ih]

/-- The tokens of a line around one of its chunks: those of the chunks before it, its own, and those
of the chunks after it. It starts the line just if no chunk comes before it. -/
theorem ofPlaced_append (number : Nat) (startsLine : Bool) (as : List Chunk) (c : Chunk)
    (bs : List Chunk) :
    ofPlaced number startsLine (as ++ c :: bs) =
      ofPlaced number startsLine as ++
        (ofChunk c.text (startsLine && as.isEmpty) number (c.offset + 1) ++
          ofPlaced number false bs) := by
  induction as generalizing startsLine with
  | nil => simp [ofPlaced]
  | cons a as ih => simp [ofPlaced, ih]

/-- The tokens of lines are those of the first lines and those of the others, whose numbers go on
from there. -/
theorem ofLines_append (number : Nat) (as bs : List Text) :
    ofLines number (as ++ bs) = ofLines number as ++ ofLines (number + as.length) bs := by
  induction as generalizing number with
  | nil => rfl
  | cons a as ih =>
    rw [List.cons_append, ofLines, ih, ofLines, List.length_cons, List.append_assoc,
      Nat.add_right_comm number 1 as.length, Nat.add_assoc number as.length 1]

end Token

/-- Texts that are placed on a line as chunks are the texts of these chunks. -/
theorem Chunk.map_text_place (offset : Nat) (ms : List Text) :
    (Chunk.place offset ms).map Chunk.text = ms := by
  induction ms generalizing offset with
  | nil => rfl
  | cons m ms ih => rw [Chunk.place, List.map_cons, ih]

/-- The texts of the chunks of a line. -/
theorem Chunk.map_text_ofLine (line : Text) :
    (Chunk.ofLine line).map Chunk.text = line.splitBy sameChunk :=
  Chunk.map_text_place 0 _

/-- The tokens of a line are those of its chunks. The first chunk is taken at the start of the line,
and the others are not. -/
theorem Token.ofLine_eq (number : Nat) {line : Text} (hblank : line.isBlank = false)
    (hcomment : ∀ first ∈ (Chunk.ofLine line).head?, isComment first.text = false) :
    Token.ofLine number line = Token.ofPlaced number true (Chunk.ofLine line) := by
  unfold Token.ofLine
  rw [if_neg (by simp [hblank])]
  cases hchunks : Chunk.ofLine line with
  | nil => rfl
  | cons first more =>
    rw [hchunks] at hcomment
    have hfirst : isComment first.text = false := hcomment first rfl
    simp only [hfirst, Bool.false_eq_true, if_false]
    rw [Token.ofPlaced, Token.ofPlaced_false]

/-! ## The first token of a chunk, and the others -/

namespace Token

variable {t : Token}

/-- A token that begins a chunk of ink other than a macro. -/
def BeginsWord (t : Token) : Prop :=
  t.kind = .word ∨ t.kind = .quote ∨ t.kind = .backslash

namespace BeginsWord

/-- It is not the name of a macro. -/
theorem ne_macroName (ht : t.BeginsWord) : t.kind ≠ .macroName := by
  rcases ht with hk | hk | hk <;> simp [hk]

/-- It is not the token of an empty line. -/
theorem ne_emptyLine (ht : t.BeginsWord) : t.kind ≠ .emptyLine := by
  rcases ht with hk | hk | hk <;> simp [hk]

/-- It is no blank. -/
theorem ne_blank (ht : t.BeginsWord) : t.kind ≠ .blank := by
  rcases ht with hk | hk | hk <;> simp [hk]

/-- It is no part of an escape that has been begun. -/
theorem not_part (ht : t.BeginsWord) :
    t.kind ≠ .command ∧ t.kind ≠ .argument ∧ t.kind ≠ .openParen ∧ t.kind ≠ .openBracket ∧
      t.kind ≠ .closeBracket := by
  rcases ht with hk | hk | hk <;> simp [hk]

end BeginsWord

/-- A token that stands within a chunk: it starts no line and is no blank. -/
structure IsWithin (t : Token) : Prop where
  startsLine_eq : t.startsLine = false
  ne_macroName : t.kind ≠ .macroName
  ne_emptyLine : t.kind ≠ .emptyLine
  ne_blank : t.kind ≠ .blank

/-- A token stands within a chunk if it starts no line and comes from a word, a quote, a backslash
or a part of an escape. These are all the lexemes that a chunk of ink can have. -/
theorem isWithin_of_kind {x : Lexeme} (hl : t.startsLine = false) (hkind : t.kind = x.kind)
    (hx : x.kind = .word ∨ x.kind = .quote ∨ x.kind = .backslash ∨ x.IsInEscape) :
    t.IsWithin := by
  rcases hx with hx | hx | hx | hx | hx | hx | hx | hx <;>
    exact ⟨hl, by simp [hkind, hx], by simp [hkind, hx], by simp [hkind, hx]⟩

end Token

/-! ## Chunks in their places -/

/-- A chunk of ink of a source, with what stands before and after it. Its line is no comment, which
has no tokens. -/
structure Chunk.Occurrence (source : Text) where
  linesBefore : List Text
  line : Text
  linesAfter : List Text
  chunksBefore : List Chunk
  chunk : Chunk
  chunksAfter : List Chunk
  lines_eq : source.splitLines = linesBefore ++ line :: linesAfter
  chunks_eq : Chunk.ofLine line = chunksBefore ++ chunk :: chunksAfter
  isInk : chunk.text.isInk = true
  not_isComment : ∀ first ∈ (Chunk.ofLine line).head?, isComment first.text = false

namespace Chunk.Occurrence

/-- The line of a chunk is cut into the texts before the chunk, that of the chunk, and the texts
after it. -/
theorem texts_ofLine (o : Occurrence source) :
    o.line.splitBy sameChunk =
      o.chunksBefore.map Chunk.text ++ o.chunk.text :: o.chunksAfter.map Chunk.text := by
  rw [← Chunk.map_text_ofLine, o.chunks_eq, List.map_append, List.map_cons]

/-- The text of a chunk is not empty, since a line is cut into texts that are not. -/
theorem text_ne_nil (o : Occurrence source) : o.chunk.text ≠ [] := by
  refine List.ne_nil_of_mem_splitBy (r := sameChunk) (l := o.line) ?_
  rw [o.texts_ofLine]
  simp

/-- The line is not blank, since the chunk is ink. A character of the chunk is a character of the
line. -/
theorem isBlank_line (o : Occurrence source) : o.line.isBlank = false := by
  obtain ⟨c, u, hchunk⟩ := List.exists_cons_of_ne_nil o.text_ne_nil
  have hc : c ∈ o.chunk.text := by simp [hchunk]
  have hmem : c ∈ o.line := mem_of_mem_splitBy (m := o.chunk.text) (by rw [o.texts_ofLine]; simp) hc
  have hink : isSpace c = false := Text.isInk_iff.mp o.isInk c hc
  rw [Bool.eq_false_iff]
  intro hblank
  rw [Text.isBlank_iff.mp hblank c hmem] at hink
  exact Bool.noConfusion hink

/-- The number of the line. -/
def number (o : Occurrence source) : Nat :=
  1 + o.linesBefore.length

/-- The tokens of what stands before the chunk. -/
def tokensBefore (o : Occurrence source) : List Token :=
  Token.ofLines 1 o.linesBefore ++ Token.ofPlaced o.number true o.chunksBefore

/-- The tokens of the chunk. -/
def tokens (o : Occurrence source) : List Token :=
  Token.ofChunk o.chunk.text o.chunksBefore.isEmpty o.number (o.chunk.offset + 1)

/-- The tokens of what follows the chunk. -/
def tokensAfter (o : Occurrence source) : List Token :=
  Token.ofPlaced o.number false o.chunksAfter ++ Token.ofLines (o.number + 1) o.linesAfter

/-- The tokens of the source are those before the chunk, its own, and those after it. -/
theorem ofSource_eq (o : Occurrence source) :
    Token.ofSource source = o.tokensBefore ++ (o.tokens ++ o.tokensAfter) := by
  have hline : Token.ofLine o.number o.line = Token.ofPlaced o.number true (Chunk.ofLine o.line) :=
    Token.ofLine_eq o.number o.isBlank_line o.not_isComment
  rw [Token.ofSource, o.lines_eq, Token.ofLines_append, Token.ofLines, ← number, hline,
    o.chunks_eq, Token.ofPlaced_append]
  simp only [tokensBefore, tokens, tokensAfter, Bool.true_and, List.append_assoc]

/-- The tokens of a chunk are a macro by itself, or one that begins a word and others within it. It
is a macro if it starts its line with a point; its lexemes are otherwise those of ink. -/
theorem tokens_cases (o : Occurrence source) :
    (∃ t, o.tokens = [t] ∧ t.kind = .macroName) ∨
      ∃ t ts, o.tokens = t :: ts ∧ t.BeginsWord ∧ t.startsLine = o.chunksBefore.isEmpty ∧
        ∀ u ∈ ts, u.IsWithin := by
  obtain ⟨c, u, hchunk⟩ := List.exists_cons_of_ne_nil o.text_ne_nil
  have hc : isSpace c = false := Text.isInk_iff.mp o.isInk c (by simp [hchunk])
  rw [tokens, hchunk, Token.ofChunk, Token.lexemes]
  split
  · exact Or.inl ⟨_, rfl, rfl⟩
  · rw [if_neg (by simp [hc])]
    obtain ⟨x, xs, hlexemes, hx⟩ := Lexeme.ofChunk_eq_cons c u
    rw [hlexemes]
    refine Or.inr ⟨_, _, rfl, hx, rfl, fun t ht => ?_⟩
    obtain ⟨y, hy, hkind, -⟩ := Token.exists_of_mem_place ht
    have hmem : y ∈ Lexeme.ofChunk (c :: u) := by
      rw [hlexemes]
      exact List.mem_cons_of_mem x hy
    exact Token.isWithin_of_kind (Token.startsLine_of_mem_place ht) hkind
      (Lexeme.kind_cases_of_mem_ofChunk hmem)

/-- What comes before a chunk that does not start its line is a blank.

**Proof sketch.** The chunk before it on the line is not of ink, as two neighbours never are. So it
is blank, and a blank chunk is one token. -/
theorem tokensBefore_cases (o : Occurrence source) :
    o.chunksBefore.isEmpty = true ∨
      ∃ ts t, o.tokensBefore = ts ++ [t] ∧ t.kind = .blank := by
  rcases List.eq_nil_or_concat o.chunksBefore with hnil | ⟨cs, b, hbefore⟩
  · exact Or.inl (by rw [hnil]; rfl)
  refine Or.inr ⟨Token.ofLines 1 o.linesBefore ++ Token.ofPlaced o.number true cs,
    ⟨.blank, b.text, cs.isEmpty, o.number, b.offset + 1⟩, ?_, rfl⟩
  have htexts : o.line.splitBy sameChunk =
      cs.map Chunk.text ++ b.text :: o.chunk.text :: o.chunksAfter.map Chunk.text := by
    rw [o.texts_ofLine, hbefore]
    simp
  have hmem : b.text ∈ o.line.splitBy sameChunk := by
    rw [htexts]
    simp
  -- the chunk before one of ink is no ink, so it is blank
  have hchain := isChain_not_isInk_splitBy o.line
  rw [htexts, List.isChain_append_cons_cons] at hchain
  have hblank : b.text.isBlank = true := by
    refine (isBlank_or_isInk_of_isChain (List.isChain_of_mem_splitBy hmem)).resolve_right ?_
    intro hink
    have hnot := hchain.2.1 hink
    rw [o.isInk] at hnot
    exact Bool.noConfusion hnot
  obtain ⟨c, u, hb⟩ := List.exists_cons_of_ne_nil (List.ne_nil_of_mem_splitBy hmem)
  have hc : isSpace c = true := Text.isBlank_iff.mp hblank c (by simp [hb])
  have hpoint : c ≠ '.' := by
    rintro rfl
    exact absurd hc (by decide)
  have htoken : Token.ofChunk b.text cs.isEmpty o.number (b.offset + 1) =
      [⟨.blank, b.text, cs.isEmpty, o.number, b.offset + 1⟩] := by
    simp [Token.ofChunk, Token.lexemes, hb, hc, hpoint, Token.place]
  rw [tokensBefore, hbefore, List.concat_eq_append, Token.ofPlaced_append, Bool.true_and, htoken,
    Token.ofPlaced, List.append_nil, List.append_assoc]

end Chunk.Occurrence

end Manpage

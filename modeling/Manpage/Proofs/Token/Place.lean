import Manpage.Proofs.Token.Occurrence

/-!
# The places of tokens

The tokens of a source can be put back where they come from. They stand in the order of the lines,
and those of one line, side by side from the first column on, spell it out: nothing of the line is
lost, nothing is read twice, and each token knows its place. A blank line has a token of its own
instead, and a comment has none.

## Main definitions

* `Manpage.isCommentLine` — whether a line is a comment.
* `Manpage.Token.onLine` — the tokens on one line.
* `Manpage.Token.Spells` — tokens that spell out a line.

## Main results

* `Manpage.Token.onLine_ofLines` — the tokens of a line among those of several.
* `Manpage.Token.spells_ofLine` — the tokens of a line spell it out.
* `Manpage.Token.onLine_ofSource` — the lines of a source are got back from its tokens.
-/

namespace Manpage

/-- A line is a comment if its first chunk makes it one. -/
def isCommentLine (line : Text) : Bool :=
  (Chunk.ofLine line).head?.any fun first => isComment first.text

namespace Token

variable {t : Token} {ts us before after : List Token} {xs : List Lexeme} {m line : Text}
  {ms lines : List Text} {startsLine : Bool} {number column : Int}

/-- The tokens on the line with a given number. -/
def onLine (number : Int) (ts : List Token) : List Token :=
  ts.filter fun t => t.line = number

/-- Tokens that spell out a line. Each knows its column and whether it is the first; and if there is
the name of a macro among them, it is the first chunk of a line that begins with a point. -/
structure Spells (line : Text) (ts : List Token) : Prop where
  ne_nil : ts ≠ []
  valueOf_eq : valueOf ts = line
  column_eq : ∀ (before : List Token) (t : Token) (after : List Token),
    ts = before ++ t :: after → t.column = 1 + ((valueOf before).length : Int)
  startsLine_iff : ∀ (before : List Token) (t : Token) (after : List Token),
    ts = before ++ t :: after → (t.startsLine = true ↔ before = [])
  exists_macroName_iff : (∃ t ∈ ts, t.kind = .macroName) ↔ line.head? = some '.'
  macroName_eq : ∀ t ∈ ts, t.kind = .macroName →
    ts.head? = some t ∧ (Chunk.ofLine line).head?.map Chunk.text = some t.value

/-! ## Tokens side by side -/

/-- Tokens side by side from a column on. The first of them may start the line. -/
def SideBySide (startsLine : Bool) (column : Int) : List Token → Prop
  | [] => True
  | t :: ts =>
    t.startsLine = startsLine ∧ t.column = column ∧ SideBySide false (column + t.value.length) ts

/-- The characters of two rows of tokens are those of the first and those of the second. -/
theorem valueOf_append (ts us : List Token) : valueOf (ts ++ us) = valueOf ts ++ valueOf us :=
  List.flatMap_append

namespace SideBySide

/-- Tokens side by side, and further tokens from the column on where those end, are side by side all
together. The second row starts the line only if the first is empty. -/
theorem append (h : SideBySide startsLine column ts)
    (h' : SideBySide (startsLine && ts.isEmpty) (column + (valueOf ts).length) us) :
    SideBySide startsLine column (ts ++ us) := by
  induction ts generalizing startsLine column with
  | nil => simpa using h'
  | cons t ts ih =>
    obtain ⟨hl, hc, h⟩ := h
    refine ⟨hl, hc, ih h ?_⟩
    have hcolumn : column + t.value.length + (valueOf ts).length =
        column + (valueOf (t :: ts)).length := by
      rw [valueOf_cons, List.length_append]
      omega
    simpa [hcolumn] using h'

/-- The place of a token is behind all that stands before it. By induction on the tokens before it,
each of which shifts it by the length of its value. -/
theorem place_eq (h : SideBySide startsLine column (before ++ t :: after)) :
    t.column = column + (valueOf before).length ∧
      t.startsLine = (startsLine && before.isEmpty) := by
  induction before generalizing startsLine column with
  | nil =>
    obtain ⟨hl, hc, -⟩ := h
    simp [hl, hc]
  | cons u before ih =>
    obtain ⟨-, -, h⟩ := h
    obtain ⟨hc, hl⟩ := ih h
    refine ⟨?_, by simp [hl]⟩
    rw [hc, valueOf_cons, List.length_append]
    omega

end SideBySide

/-! ## Lexemes and chunks -/

/-- Lexemes that are placed become tokens side by side, from the given column on. -/
theorem sideBySide_place (startsLine : Bool) (number column : Int) (xs : List Lexeme) :
    SideBySide startsLine column (place startsLine number column xs) := by
  induction xs generalizing startsLine column with
  | nil => trivial
  | cons x xs ih => exact ⟨rfl, rfl, ih false _⟩

/-- Tokens that are made of lexemes spell what the lexemes spell. -/
theorem valueOf_place (startsLine : Bool) (number column : Int) (xs : List Lexeme) :
    valueOf (place startsLine number column xs) = Lexeme.spell xs := by
  induction xs generalizing startsLine column with
  | nil => rfl
  | cons x xs ih => rw [place, valueOf_cons, ih, Lexeme.spell_cons]

/-- Tokens that are made of lexemes all have the number of the line that is given. -/
theorem line_of_mem_place (h : t ∈ place startsLine number column xs) : t.line = number := by
  induction xs generalizing startsLine column with
  | nil => exact absurd h List.not_mem_nil
  | cons x xs ih =>
    rcases List.mem_cons.mp h with rfl | h
    · rfl
    · exact ih h

/-- The lexemes of a chunk spell it out, wherever it stands. A macro and a blank are one lexeme
each. -/
theorem spell_lexemes (startsLine : Bool) (m : Text) :
    Lexeme.spell (lexemes startsLine m) = m := by
  cases m with
  | nil => rfl
  | cons c u =>
    simp only [lexemes]
    split
    · simp
    · split
      · simp
      · exact Lexeme.spell_ofChunk (c :: u)

/-- The tokens of a chunk spell it out, whether it starts the line or not. -/
theorem valueOf_ofChunk (m : Text) (startsLine : Bool) (number column : Int) :
    valueOf (ofChunk m startsLine number column) = m := by
  rw [ofChunk, valueOf_place, spell_lexemes]

/-- A chunk that is not empty has a token. -/
theorem ofChunk_ne_nil (hne : m ≠ []) : ofChunk m startsLine number column ≠ [] := by
  intro hnil
  have hvalue := valueOf_ofChunk m startsLine number column
  rw [hnil] at hvalue
  exact hne hvalue.symm

/-- The tokens of chunks spell out the texts of the chunks, one after another. -/
theorem valueOf_ofPlaced (number : Nat) (startsLine : Bool) (offset : Nat) (ms : List Text) :
    valueOf (ofPlaced number startsLine (Chunk.place offset ms)) = ms.flatten := by
  induction ms generalizing startsLine offset with
  | nil => rfl
  | cons m ms ih =>
    rw [Chunk.place, ofPlaced, valueOf_append, valueOf_ofChunk, ih, List.flatten_cons]

/-- The tokens of chunks stand side by side, since no chunk is empty.

**Proof sketch.** By induction on the chunks. Each begins where the one before ends, and only the
first of the line may start it. -/
theorem sideBySide_ofPlaced (number : Nat) (startsLine : Bool) (offset : Nat)
    (hms : ∀ m ∈ ms, m ≠ []) :
    SideBySide startsLine (offset + 1) (ofPlaced number startsLine (Chunk.place offset ms)) := by
  induction ms generalizing startsLine offset with
  | nil => trivial
  | cons m ms ih =>
    rw [Chunk.place, ofPlaced]
    refine (sideBySide_place startsLine number _ _).append ?_
    have hrest := ih false (offset + m.length) fun a ha => hms a (List.mem_cons_of_mem m ha)
    have hcolumn : ((offset + m.length : Nat) : Int) + 1 =
        (offset : Int) + 1 + (valueOf (ofChunk m startsLine number (offset + 1))).length := by
      rw [valueOf_ofChunk]
      push_cast
      omega
    have hfirst : (ofChunk m startsLine number ((offset : Int) + 1)).isEmpty = false := by
      simpa using ofChunk_ne_nil (hms m List.mem_cons_self)
    rw [hcolumn] at hrest
    change SideBySide (startsLine && (ofChunk m startsLine number (offset + 1)).isEmpty) _ _
    rwa [hfirst, Bool.and_false]

/-! ## Names of macros -/

/-- Behind the beginning of a line there are no names of macros. No lexeme of ink is one, and
neither is a blank. -/
theorem ne_macroName_of_mem_ofChunk (hm : startsLine = true → m.head? ≠ some '.')
    (h : t ∈ ofChunk m startsLine number column) : t.kind ≠ .macroName := by
  obtain ⟨x, hx, hkind, -⟩ := exists_of_mem_place h
  rw [hkind]
  cases m with
  | nil => exact absurd hx List.not_mem_nil
  | cons c u =>
    simp only [lexemes] at hx
    split at hx
    · rename_i hpoint
      simp only [Bool.and_eq_true, beq_iff_eq] at hpoint
      exact absurd (by simp [hpoint.2]) (hm hpoint.1)
    · split at hx
      · obtain rfl := List.mem_singleton.mp hx
        simp
      · rcases Lexeme.kind_cases_of_mem_ofChunk hx with hk | hk | hk | hk | hk | hk | hk | hk <;>
          simp [hk]

/-- Only the first chunk of a line can be the name of a macro: where no chunk starts the line, no
token is one. -/
theorem ne_macroName_of_mem_ofPlaced {number : Nat} {chunks : List Chunk}
    (h : t ∈ ofPlaced number false chunks) : t.kind ≠ .macroName := by
  rw [ofPlaced_false] at h
  obtain ⟨chunk, -, h⟩ := List.mem_flatMap.mp h
  exact ne_macroName_of_mem_ofChunk (by simp) h

/-- A chunk at the beginning of a line that begins with a point is the name of a macro. -/
theorem ofChunk_point (hm : m.head? = some '.') (number column : Int) :
    ofChunk m true number column = [⟨.macroName, m, true, number, column⟩] := by
  obtain ⟨u, rfl⟩ : ∃ u, m = '.' :: u := by
    cases m with
    | nil => exact absurd hm (by simp)
    | cons c u =>
      obtain rfl : c = '.' := by simpa using hm
      exact ⟨u, rfl⟩
  rfl

/-- A line begins as its first chunk does. -/
theorem head?_line_eq (hms : line.splitBy sameChunk = m :: ms) : line.head? = m.head? := by
  have hne : m ≠ [] := List.ne_nil_of_mem_splitBy (hms ▸ List.mem_cons_self)
  rw [← List.flatten_splitBy sameChunk line, hms, List.flatten_cons,
    List.head?_append_of_ne_nil m hne]

/-- The name of a macro is the first chunk of a line that begins with a point. The other chunks do
not start the line. -/
theorem exists_macroName_of_point (number : Nat) (hpoint : line.head? = some '.') :
    ∃ t us, ofPlaced number true (Chunk.ofLine line) = t :: us ∧ t.kind = .macroName ∧
      (Chunk.ofLine line).head?.map Chunk.text = some t.value ∧ ∀ u ∈ us, u.kind ≠ .macroName := by
  unfold Chunk.ofLine
  cases hms : line.splitBy sameChunk with
  | nil => simp [List.splitBy_eq_nil.mp hms] at hpoint
  | cons m ms =>
    rw [head?_line_eq hms] at hpoint
    rw [Chunk.place, ofPlaced, ofChunk_point hpoint]
    exact ⟨_, _, rfl, rfl, rfl, fun u => ne_macroName_of_mem_ofPlaced⟩

/-- A line that does not begin with a point has no name of a macro. Only the first chunk starts the
line, and it begins as the line does. -/
theorem ne_macroName_of_not_point {number : Nat} (hpoint : line.head? ≠ some '.')
    (h : t ∈ ofPlaced number true (Chunk.ofLine line)) : t.kind ≠ .macroName := by
  unfold Chunk.ofLine at h
  cases hms : line.splitBy sameChunk with
  | nil =>
    rw [hms] at h
    exact absurd h List.not_mem_nil
  | cons m ms =>
    rw [head?_line_eq hms] at hpoint
    rw [hms, Chunk.place, ofPlaced] at h
    rcases List.mem_append.mp h with h | h
    · exact ne_macroName_of_mem_ofChunk (fun _ => hpoint) h
    · exact ne_macroName_of_mem_ofPlaced h

/-! ## Lines -/

/-- The tokens of the chunks of a line spell it out.

**Proof sketch.** They spell out their chunks side by side. Only the first chunk can be the name of
a macro, and it is one where it begins with a point. -/
theorem spells_ofPlaced (number : Nat) (hline : line ≠ []) :
    Spells line (ofPlaced number true (Chunk.ofLine line)) := by
  have hvalue : valueOf (ofPlaced number true (Chunk.ofLine line)) = line := by
    rw [Chunk.ofLine, valueOf_ofPlaced, List.flatten_splitBy]
  have hplaces : SideBySide true (0 + 1) (ofPlaced number true (Chunk.ofLine line)) :=
    sideBySide_ofPlaced number true 0 fun m hm => List.ne_nil_of_mem_splitBy hm
  refine ⟨?_, hvalue, fun before t after heq => ?_, fun before t after heq => ?_, ⟨?_, ?_⟩, ?_⟩
  · intro hnil
    rw [hnil] at hvalue
    exact hline hvalue.symm
  · rw [heq] at hplaces
    exact hplaces.place_eq.1
  · rw [heq] at hplaces
    simp [hplaces.place_eq.2]
  · rintro ⟨t, ht, hk⟩
    by_contra hpoint
    exact ne_macroName_of_not_point hpoint ht hk
  · intro hpoint
    obtain ⟨t, us, heq, hk, -⟩ := exists_macroName_of_point number hpoint
    exact ⟨t, by simp [heq], hk⟩
  · intro t ht hk
    by_cases hpoint : line.head? = some '.'
    · obtain ⟨u, us, heq, -, htext, hus⟩ := exists_macroName_of_point number hpoint
      rw [heq] at ht ⊢
      rcases List.mem_cons.mp ht with rfl | ht
      · exact ⟨rfl, htext⟩
      · exact absurd hk (hus t ht)
    · exact absurd hk (ne_macroName_of_not_point hpoint ht)

/-- **A line.** The tokens of a line that is neither blank nor a comment spell it out. They are
those of its chunks, which are cut out of the line side by side. -/
theorem spells_ofLine (number : Nat) (hblank : line.isBlank = false)
    (hcomment : isCommentLine line = false) : Spells line (ofLine number line) := by
  have hfirst : ∀ first ∈ (Chunk.ofLine line).head?, isComment first.text = false := by
    intro first hmem
    rw [isCommentLine, Option.mem_def.mp hmem] at hcomment
    exact hcomment
  rw [ofLine_eq number hblank hfirst]
  refine spells_ofPlaced number ?_
  rintro rfl
  exact Bool.noConfusion hblank

/-- A blank line has one token, for an empty line, in its first column. -/
theorem ofLine_of_isBlank (number : Nat) (h : line.isBlank = true) :
    ofLine number line = [⟨.emptyLine, [], true, number, 1⟩] :=
  if_pos h

/-- A comment has no tokens. Whether it is one, the first chunk says. -/
theorem ofLine_of_isCommentLine (number : Nat) (hblank : line.isBlank = false)
    (h : isCommentLine line = true) : ofLine number line = [] := by
  unfold ofLine
  rw [if_neg (by simp [hblank])]
  unfold isCommentLine at h
  cases hchunks : Chunk.ofLine line with
  | nil => rfl
  | cons first more =>
    rw [hchunks] at h
    exact if_pos h

/-- The tokens of a line are on it. A line gives its number to each of its chunks. -/
theorem line_of_mem_ofLine {number : Nat} (h : t ∈ ofLine number line) : t.line = number := by
  unfold ofLine at h
  split at h
  · obtain rfl := List.mem_singleton.mp h
    rfl
  · split at h
    · exact absurd h List.not_mem_nil
    · split at h
      · exact absurd h List.not_mem_nil
      · rcases List.mem_append.mp h with h | h
        · exact line_of_mem_place h
        · obtain ⟨chunk, -, h⟩ := List.mem_flatMap.mp h
          exact line_of_mem_place h

/-! ## Sources -/

/-- The tokens of lines are on these lines. By induction on the lines, numbered one after another.
-/
theorem line_of_mem_ofLines {number : Nat} (h : t ∈ ofLines number lines) :
    (number : Int) ≤ t.line ∧ t.line < number + lines.length := by
  induction lines generalizing number with
  | nil => exact absurd h List.not_mem_nil
  | cons line lines ih =>
    rw [List.length_cons]
    rcases List.mem_append.mp h with h | h
    · have hline := line_of_mem_ofLine h
      omega
    · have hlines := ih h
      omega

/-- The tokens of lines stand in the order of the lines. Within a line all have one number, and
those of later lines have greater ones. -/
theorem pairwise_ofLines (number : Nat) (lines : List Text) :
    (ofLines number lines).Pairwise fun t u => t.line ≤ u.line := by
  induction lines generalizing number with
  | nil => exact List.Pairwise.nil
  | cons line lines ih =>
    refine List.pairwise_append.mpr ⟨?_, ih (number + 1), fun t ht u hu => ?_⟩
    · refine List.pairwise_of_forall_mem_list fun t ht u hu => ?_
      exact Int.le_of_eq ((line_of_mem_ofLine ht).trans (line_of_mem_ofLine hu).symm)
    · have hline := line_of_mem_ofLine ht
      have hlines := line_of_mem_ofLines hu
      omega

/-- The tokens on one line among those of several are the tokens of that line.

**Proof sketch.** By induction on the lines: those of an earlier line have a smaller number, and
those of a later one a greater. -/
theorem onLine_ofLines {k : Nat} (h : lines[k]? = some line) (number : Nat) :
    onLine (number + k : Nat) (ofLines number lines) = ofLine (number + k) line := by
  induction lines generalizing number k with
  | nil => exact absurd h (by simp)
  | cons first lines ih =>
    rw [ofLines, onLine, List.filter_append]
    cases k with
    | zero =>
      obtain rfl : first = line := by simpa using h
      have hfirst : (ofLine number first).filter (fun t => t.line = ((number + 0 : Nat) : Int)) =
          ofLine number first :=
        List.filter_eq_self.mpr fun t ht => by simp [line_of_mem_ofLine ht]
      have hmore : (ofLines (number + 1) lines).filter
          (fun t => t.line = ((number + 0 : Nat) : Int)) = [] := by
        refine List.filter_eq_nil_iff.mpr fun t ht => ?_
        have hlines := line_of_mem_ofLines ht
        simp only [decide_eq_true_eq]
        omega
      rw [hfirst, hmore, List.append_nil, Nat.add_zero]
    | succ k =>
      have hfirst : (ofLine number first).filter
          (fun t => t.line = ((number + (k + 1) : Nat) : Int)) = [] := by
        refine List.filter_eq_nil_iff.mpr fun t ht => ?_
        have hline := line_of_mem_ofLine ht
        simp only [decide_eq_true_eq]
        omega
      have hmore := ih (k := k) (by simpa using h) (number + 1)
      have hnumber : number + 1 + k = number + (k + 1) := by omega
      rw [hnumber] at hmore
      rw [hfirst, List.nil_append]
      exact hmore

/-- **Reading loses nothing.** The tokens of a source stand in the order of its lines. A blank line
has one token, for an empty line; a comment has none; and the tokens of any other line spell it
out. -/
theorem onLine_ofSource (source : Text) :
    ((ofSource source).Pairwise fun t u => t.line ≤ u.line) ∧
      (∀ t ∈ ofSource source, 1 ≤ t.line ∧ t.line ≤ source.splitLines.length) ∧
      ∀ (k : Nat) (line : Text), source.splitLines[k]? = some line →
        (line.isBlank = true → onLine (1 + k : Nat) (ofSource source) =
          [⟨.emptyLine, [], true, (1 + k : Nat), 1⟩]) ∧
        (line.isBlank = false → isCommentLine line = true →
          onLine (1 + k : Nat) (ofSource source) = []) ∧
        (line.isBlank = false → isCommentLine line = false →
          Spells line (onLine (1 + k : Nat) (ofSource source))) := by
  refine ⟨pairwise_ofLines 1 source.splitLines, fun t ht => ?_, fun k line hline => ?_⟩
  · have hlines := line_of_mem_ofLines ht
    omega
  · have hread : onLine (1 + k : Nat) (ofSource source) = ofLine (1 + k) line :=
      onLine_ofLines hline 1
    rw [hread]
    exact ⟨fun hblank => ofLine_of_isBlank (1 + k) hblank,
      fun hblank hcomment => ofLine_of_isCommentLine (1 + k) hblank hcomment,
      fun hblank hcomment => spells_ofLine (1 + k) hblank hcomment⟩

/-- A source of four lines, of which the second is blank and the third a comment. -/
theorem onLine_ofSource_of_four_lines :
    let ts := ofSource "a \\(bu\\fBb\n \t\n\\# c\n.B d\n".toList
    (ts.Pairwise fun t u => t.line ≤ u.line) ∧ (∀ t ∈ ts, 1 ≤ t.line ∧ t.line ≤ 4) ∧
      Spells "a \\(bu\\fBb".toList (onLine 1 ts) ∧
      onLine 2 ts = [⟨.emptyLine, [], true, 2, 1⟩] ∧ onLine 3 ts = [] ∧
      Spells ".B d".toList (onLine 4 ts) := by
  obtain ⟨hpairwise, hrange, hlines⟩ :=
    onLine_ofSource "a \\(bu\\fBb\n \t\n\\# c\n.B d\n".toList
  exact ⟨hpairwise, hrange, (hlines 0 "a \\(bu\\fBb".toList rfl).2.2 rfl rfl,
    (hlines 1 " \t".toList rfl).1 rfl, (hlines 2 "\\# c".toList rfl).2.1 rfl rfl,
    (hlines 3 ".B d".toList rfl).2.2 rfl rfl⟩

end Token

end Manpage

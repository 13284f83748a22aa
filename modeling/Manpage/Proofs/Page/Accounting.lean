import Manpage.Proofs.Page.Galley
import Mathlib.Algebra.Ring.Nat

/-!
# Line accounting

Every decision about where a line ends rests on numbers that are kept beside the texts: how many
columns the current line takes up, whether there is ink among them, where in the row of parts the
line begins, and where the open word. They are kept in six operations, one apart from the other. In
every state they agree with what stands in the row.

## Main definitions

* `Manpage.Page.Operation.FeedsAlone` — a line feed is appended alone or not at all.
* `Manpage.Page.lineTexts` — the texts on the current line, as they were appended.

## Main results

* `Manpage.Page.mem_pieces_perform` — where the pieces on a page come from.
* `Manpage.Page.accounting` — the numbers agree with the row of parts.
-/

namespace Manpage.Page

variable {p : Page} {t : Text} {op : Operation} {ops : List Operation} {x : Piece}

/-- No text with a line feed is appended, other than a line feed alone. -/
def Operation.FeedsAlone : Operation → Prop
  | append t => '\n' ∈ t → t = ['\n']
  | _ => True

/-- Whether an operation feeds a line alone is a question about the text that it appends. -/
instance : DecidablePred Operation.FeedsAlone
  | .append t => inferInstanceAs (Decidable ('\n' ∈ t → t = ['\n']))
  | .appendSpace | .breakLine | .lineBreak | .blankLine | .openWord | .closeWord
  | .setStyle .. | .plainStyle | .setNoFill _ | .setIndent _ | .storeIndent | .forgetIndent
  | .pushMargin _ | .popMargin | .clearMargins | .sectionMargin => isTrue trivial

/-- The texts on the current line as they were appended, padding included, in order. -/
def lineTexts (p : Page) : List Text :=
  p.currentLine.reverse.map Piece.text

/-! ## Where pieces come from -/

/-- With the end of a line nothing comes onto a page but spaces. -/
theorem mem_pieces_lineBreak (h : x ∈ p.lineBreak.pieces) : x = Piece.space ∨ x ∈ p.pieces := by
  unfold lineBreak at h
  split at h
  · exact mem_pieces_startLine h
  · exact mem_pieces_breakLine h

/-- With an empty line nothing comes onto a page but spaces. -/
theorem mem_pieces_blankLine (h : x ∈ p.blankLine.pieces) : x = Piece.space ∨ x ∈ p.pieces := by
  unfold blankLine at h
  split at h
  · exact mem_pieces_startLine h
  · rcases mem_pieces_breakLine h with hx | hx
    · exact Or.inl hx
    · exact mem_pieces_breakLine hx

/-- A line feed adds no piece, and any other text adds itself. What else may come are the spaces
that pad a new line. -/
theorem mem_pieces_append (h : x ∈ (p.append t).pieces) :
    x = Piece.space ∨ x ∈ p.pieces ∨ x.text = t ∧ t ≠ ['\n'] := by
  by_cases hfeed : t = ['\n']
  · rw [hfeed, append, if_neg (by decide), if_pos rfl] at h
    exact (mem_pieces_breakLine h).imp_right Or.inl
  rcases append_eq p t with heq | heq | heq | heq
  · rw [heq] at h
    exact Or.inr (Or.inl h)
  · rw [heq] at h
    rcases mem_pieces_put h with rfl | hx
    · exact Or.inr (Or.inr ⟨rfl, hfeed⟩)
    · exact Or.inr (Or.inl hx)
  · rw [heq] at h
    exact (mem_pieces_breakLine h).imp_right Or.inl
  · rw [heq] at h
    rcases mem_pieces_put h with rfl | hx
    · exact Or.inr (Or.inr ⟨rfl, hfeed⟩)
    · exact (mem_pieces_breakLine hx).imp_right Or.inl

/-- With the opening of a word nothing comes onto a page. An opened word is empty, and a block
within a word opens nothing. -/
theorem mem_pieces_openWord (h : x ∈ p.openWord.pieces) : x ∈ p.pieces := by
  cases hw : p.word with
  | none =>
    rw [pieces, currentLine_openWord hw, openWord_of_none hw] at h
    exact h
  | some w =>
    have hopen : p.openWord = { p with blocks := false :: p.blocks } := by rw [openWord, hw]
    rw [hopen] at h
    exact h

/-- With the closing of a block nothing comes onto a page but spaces. The block that is closed is
not that of the word, or the word is completed, and perhaps carried over to a padded line. -/
theorem mem_pieces_closeWord (h : x ∈ p.closeWord.pieces) : x = Piece.space ∨ x ∈ p.pieces := by
  cases hb : p.blocks with
  | nil =>
    rw [closeWord, hb] at h
    exact Or.inr h
  | cons owner outer =>
    cases owner with
    | false =>
      rw [closeWord, hb] at h
      exact Or.inr h
    | true =>
      have hclose : p.closeWord = completeWord { p with blocks := outer } := by
        rw [closeWord, hb]
        rfl
      rw [hclose] at h
      rcases completeWord_eq { p with blocks := outer } with heq | ⟨w, hw, -⟩
      · rw [heq] at h
        exact Or.inr h
      · exact mem_pieces_completeWord (p := { p with blocks := outer }) hw h

/-- **Where pieces come from.** What is on a page after an operation is a space, was there before,
or is the text that was appended, which is no line feed.

**Proof sketch.** By cases on the operation. Only the appending of a text brings a piece of its own;
breaks and carried words bring the spaces of the padding, and the others touch no piece. -/
theorem mem_pieces_perform (h : x ∈ (p.perform op).pieces) :
    x.text = [' '] ∨ x ∈ p.pieces ∨ op = .append x.text ∧ x.text ≠ ['\n'] := by
  have hspace : x = Piece.space ∨ x ∈ p.pieces →
      x.text = [' '] ∨ x ∈ p.pieces ∨ op = .append x.text ∧ x.text ≠ ['\n'] := by
    rintro (rfl | hx)
    · exact Or.inl rfl
    · exact Or.inr (Or.inl hx)
  cases op with
  | append t =>
    rcases mem_pieces_append h with rfl | hx | ⟨rfl, hfeed⟩
    · exact Or.inl rfl
    · exact Or.inr (Or.inl hx)
    · exact Or.inr (Or.inr ⟨rfl, hfeed⟩)
  | appendSpace =>
    simp only [perform, appendSpace] at h
    split at h
    · exact Or.inr (Or.inl h)
    · rcases mem_pieces_append h with rfl | hx | ⟨hx, -⟩
      · exact Or.inl rfl
      · exact Or.inr (Or.inl hx)
      · exact Or.inl hx
  | breakLine => exact hspace (mem_pieces_breakLine h)
  | lineBreak => exact hspace (mem_pieces_lineBreak h)
  | blankLine => exact hspace (mem_pieces_blankLine h)
  | openWord => exact Or.inr (Or.inl (mem_pieces_openWord h))
  | closeWord => exact hspace (mem_pieces_closeWord h)
  | popMargin =>
    simp only [perform, popMargin?] at h
    split at h
    · exact Or.inr (Or.inl h)
    · exact Or.inr (Or.inl h)
  | setStyle | plainStyle | setNoFill | setIndent | storeIndent | forgetIndent | pushMargin
  | clearMargins | sectionMargin => exact Or.inr (Or.inl h)

/-- No piece on a page has a line feed in it. By induction on the operations: what is put there is a
space or a text that is appended, and a line feed is appended only alone, as a break. -/
theorem newline_not_mem_performAll (hp : ∀ x ∈ p.pieces, '\n' ∉ x.text)
    (h : ∀ op ∈ ops, op.FeedsAlone) : ∀ x ∈ (p.performAll ops).pieces, '\n' ∉ x.text := by
  induction ops generalizing p with
  | nil => exact hp
  | cons op ops ih =>
    obtain ⟨hop, hops⟩ := List.forall_mem_cons.mp h
    refine ih (p := p.perform op) (fun x hx => ?_) hops
    rcases mem_pieces_perform hx with hspace | hx | ⟨rfl, hfeed⟩
    · rw [hspace]
      decide
    · exact hp x hx
    · exact fun hmem => hfeed (hop hmem)

/-! ## The row of parts -/

/-- The current line is the end of the row. -/
theorem drop_lineStart_galley (p : Page) :
    p.galley.parts.drop p.galley.lineStart = p.currentLine.reverse.map Piece.shown :=
  List.drop_left

/-- Before the current line stands a line feed, or nothing. Finished lines end with one, and the
current line begins behind the last of them. -/
theorem getElem?_lineStart_galley (p : Page) :
    p.galley.lineStart = 0 ∨ p.galley.parts[p.galley.lineStart - 1]? = some ['\n'] := by
  cases hfinished : p.finished with
  | nil =>
    left
    simp [galley, finishedParts, hfinished]
  | cons line lines =>
    right
    obtain ⟨parts, hparts⟩ : ∃ parts, p.finishedParts = parts ++ [['\n']] := by
      refine ⟨(lines.reverse.flatMap fun line => Piece.parts line ++ [['\n']]) ++
        Piece.parts line, ?_⟩
      simp [finishedParts, hfinished]
    simp [galley, hparts]

/-- An open word is the end of the row. The row is the finished lines, the current line up to the
word and the texts of the word, in this order. -/
theorem word_galley {v : Galley.Word} (hv : p.galley.word = some v) :
    p.galley.lineStart ≤ v.start ∧ v.start ≤ p.galley.parts.length ∧
      p.galley.parts.drop v.start = v.texts.map Prod.snd := by
  obtain ⟨w, hw, rfl⟩ := Option.map_eq_some_iff.mp hv
  have hparts := parts_galley_of_word hw
  refine ⟨?_, ?_, ?_⟩
  · simp [galley]
  · simp only [hparts, List.length_append]
    omega
  · rw [hparts, List.drop_left, List.map_map]
    rfl

/-- The characters of a line, text by text. -/
theorem length_lineText (p : Page) : p.lineText.length = (p.lineTexts.map List.length).sum := by
  rw [lineText, Piece.lineText, lineTexts, List.length_flatMap, List.map_map]
  rfl

/-- A line is blank just if each of its texts is. This is the question that the extent answers. -/
theorem isBlank_lineText_iff (p : Page) :
    p.lineText.isBlank = true ↔ ∀ t ∈ p.lineTexts, t.isBlank = true := by
  simp only [lineText, Piece.lineText, lineTexts, Text.isBlank, List.all_flatMap, List.all_eq_true,
    List.mem_map, forall_exists_index, and_imp, forall_apply_eq_imp_iff₂]

/-- **Line accounting is exact.** For lines of any width, and whatever operations are carried out,
within blocks that keep words together and outside of them:

* the length of the current line is that of the texts on it, and it is blank just where they are;
* these texts, as they are shown, are the end of the row of parts, and there is no line feed in
  them;
* the current line begins behind a line feed, or at the start of the row;
* the texts of an open word, as they are shown, are the end of the row from the place on where the
  word begins, which is on the current line.

The texts that are appended are each all blanks or all ink, and line feeds are appended alone.

**Proof sketch.** The galley is that of the page after the same operations, by induction on these,
one operation at a time. On a page the extent is that of the pieces on its line; the places are the
lengths of what stands before. -/
theorem accounting (width : Int) (huniform : ∀ op ∈ ops, op.IsUniform)
    (hfeeds : ∀ op ∈ ops, op.FeedsAlone) :
    let p := (ofWidth width).performAll ops
    let g := (Galley.ofWidth width).performAll ops
    (p.lineLength = (p.lineTexts.map List.length).sum ∧
      (p.isLineBlank = true ↔ ∀ t ∈ p.lineTexts, t.isBlank = true)) ∧
    (g.lineLength = p.lineLength ∧ g.isLineBlank = p.isLineBlank ∧ g.parts.flatten = p.shown) ∧
    (g.parts.drop g.lineStart = p.currentLine.reverse.map Piece.shown ∧
      g.lineStart ≤ g.parts.length ∧
      (g.lineStart = 0 ∨ g.parts[g.lineStart - 1]? = some ['\n']) ∧
      ∀ t ∈ g.parts.drop g.lineStart, '\n' ∉ t) ∧
    ∀ w, g.word = some w → g.lineStart ≤ w.start ∧ w.start ≤ g.parts.length ∧
      g.parts.drop w.start = w.texts.map Prod.snd := by
  intro p g
  have hg : p.galley = g := galley_performAll width huniform
  have hp : p.Proper := Proper.performAll (proper_ofWidth width) huniform
  rw [← hg]
  refine ⟨⟨?_, ?_⟩, ⟨rfl, rfl, flatten_parts_galley p⟩,
    ⟨drop_lineStart_galley p, ?_, getElem?_lineStart_galley p, ?_⟩, fun w hw => word_galley hw⟩
  · rw [hp.accounted.lineLength_eq, length_lineText]
  · rw [hp.accounted.isLineBlank_eq, isBlank_lineText_iff]
  · simp [galley]
  · rw [drop_lineStart_galley]
    intro t ht
    obtain ⟨x, hx, rfl⟩ := List.mem_map.mp ht
    have hnone : ∀ y ∈ p.pieces, '\n' ∉ y.text :=
      newline_not_mem_performAll (by simp [pieces, currentLine, ofWidth]) hfeeds
    exact Text.newline_not_mem_showIn x.face
      (hnone x (List.mem_append_left _ (List.mem_reverse.mp hx)))

/-- A bold word that is open behind a line feed and the padding of its line. -/
theorem accounting_of_open_word :
    let ops : List Operation :=
      [.pushMargin 2, .append "ab".toList, .append ['\n'], .setStyle .bold true, .openWord,
        .append "cde".toList, .append "fgh".toList]
    (∀ op ∈ ops, op.IsUniform) ∧ (∀ op ∈ ops, op.FeedsAlone) ∧
      ((ofWidth 6).performAll ops).lineTexts = [[' '], [' '], "cde".toList, "fgh".toList] ∧
      ((ofWidth 6).performAll ops).lineLength =
        (((ofWidth 6).performAll ops).lineTexts.map List.length).sum := by
  intro ops
  have huniform : ∀ op ∈ ops, op.IsUniform := by decide
  have hfeeds : ∀ op ∈ ops, op.FeedsAlone := by decide
  exact ⟨huniform, hfeeds, by decide, (accounting 6 huniform hfeeds).1.1⟩

end Manpage.Page

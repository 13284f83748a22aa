import Manpage.Proofs.Page.Bare

/-!
# Faces as decoration

What a terminal is told about faces decorates the text of a page and does nothing else. The text of
a page and its text without faces consist of the same pieces; the pieces of ink are the texts that
were appended, each in the face that the style had at that time, wherever the piece was carried to
since. A face is started right before such a text and is over right after it, so no blank and no
line end is shown in one.

## Main definitions

* `Manpage.Text.faceAfter` — the face that a text leaves a terminal in.
* `Manpage.Page.textPieces` — the pieces of the text of a page, its line ends included.
* `Manpage.Page.Operation.inked` — the pieces of ink that operations put on a page.

## Main results

* `Manpage.Page.text_eq_showLine`, `Manpage.Page.text_bare` — the text of a page with and without
  faces.
* `Manpage.Page.eraseControls_text` — the text of a page without its control sequences.
* `Manpage.Page.faceAfter_text` — no blank has a face.
* `Manpage.Page.inked_performAll` — the pieces of ink on a page are those that were put there.
* `Manpage.Page.decorated_performAll` — styles change the faces of a page and nothing else.
-/

namespace Manpage

/-! ## What a terminal is left in -/

namespace Text

variable {t u : Text} {face : Option Face}

/-- The face that a control sequence with a given digit sets. -/
def faceOfDigit (c : Char) : Option Face :=
  if c = '1' then some .bold
  else if c = '3' then some .italic
  else if c = '4' then some .underline
  else none

/-- The face that a text leaves a terminal in, from the face that it was in before. -/
def faceAfter (face : Option Face) : Text → Option Face
  | [] => face
  | '\x1b' :: '[' :: c :: 'm' :: t => faceAfter (faceOfDigit c) t
  | _ :: t => faceAfter face t

/-- A text without the escape character leaves the face alone. By induction, since no control
sequence begins at any of its characters. -/
theorem faceAfter_append (face : Option Face) (h : '\x1b' ∉ t) (u : Text) :
    faceAfter face (t ++ u) = faceAfter face u := by
  induction t with
  | nil => rfl
  | cons c t ih =>
    rw [List.mem_cons, not_or] at h
    have hskip : faceAfter face (c :: (t ++ u)) = faceAfter face (t ++ u) := by
      conv_lhs => unfold faceAfter
      split
      · rename_i heq
        exact absurd heq (by simp)
      · rename_i heq
        exact absurd (List.cons.inj heq).1.symm h.1
      · rename_i heq
        rw [(List.cons.inj heq).2]
    rw [List.cons_append, hskip, ih h.2]

/-- A text without the escape character leaves a terminal in the face that it is in. -/
theorem faceAfter_of_escape_not_mem (face : Option Face) (h : '\x1b' ∉ t) :
    faceAfter face t = face := by
  simpa [faceAfter] using faceAfter_append face h []

/-- A text in a face leaves the terminal in none. The sequence at its start sets the face, and the
one at its end resets it. -/
theorem faceAfter_showIn_append (h : '\x1b' ∉ t) (face : Option Face) (u : Text) :
    faceAfter none (showIn face t ++ u) = faceAfter none u := by
  cases face with
  | none => exact faceAfter_append none h u
  | some f =>
    have hstart : faceAfter none (f.start ++ (t ++ (Face.reset ++ u))) =
        faceAfter (some f) (t ++ (Face.reset ++ u)) := by
      cases f <;> rfl
    simp only [showIn, List.append_assoc]
    rw [hstart, faceAfter_append (some f) h]
    rfl

/-- Ink is shown as ink. -/
theorem isInk_showIn (face : Option Face) (h : t.isInk = true) : (showIn face t).isInk = true := by
  cases face with
  | none => exact h
  | some f =>
    have hstart : f.start.isInk = true := by cases f <;> rfl
    simp only [showIn, isInk_append, hstart, h]
    rfl

end Text

/-! ## Lines of pieces -/

namespace Piece

/-- A line end as a piece. -/
def lineEnd : Piece :=
  ⟨['\n'], none⟩

/-- The line end between two lines is a pure piece: a blank, without a face. -/
theorem isPure_lineEnd : lineEnd.IsPure :=
  ⟨by decide, Or.inl (by decide), fun _ => rfl⟩

variable {x : Piece} {xs : List Piece}

/-- A piece leaves a terminal in no face, so what is behind it is read as if nothing stood before
it. -/
theorem faceAfter_shown_append (h : '\x1b' ∉ x.text) (t : Text) :
    Text.faceAfter none (x.shown ++ t) = Text.faceAfter none t :=
  Text.faceAfter_showIn_append h x.face t

/-- **No blank is shown in a face.** Among pieces that are shown one after another, the terminal is
in no face before a blank, and in none at the end.

**Proof sketch.** Induction on the pieces. Before a blank of the first piece there are blanks only,
and before one of the others stands the first piece as a whole, after which the terminal is in no
face. -/
theorem faceAfter_of_flatMap_shown (hpure : ∀ x ∈ xs, x.IsPure)
    (hescape : ∀ x ∈ xs, '\x1b' ∉ x.text) {before after : Text}
    (heq : xs.flatMap shown = before ++ after) (hafter : ∀ c ∈ after.head?, isSpace c = true) :
    Text.faceAfter none before = none := by
  induction xs generalizing before with
  | nil =>
    obtain ⟨rfl, -⟩ := List.append_eq_nil_iff.mp heq.symm
    rfl
  | cons x xs ih =>
    have hx := hpure x List.mem_cons_self
    have hx' := hescape x List.mem_cons_self
    rw [List.flatMap_cons, List.append_eq_append_iff] at heq
    rcases heq with ⟨rest, rfl, heq⟩ | ⟨rest, heq, rfl⟩
    · -- the cut is behind this piece, and the face of the piece is over at its end
      rw [faceAfter_shown_append hx']
      exact ih (fun y hy => hpure y (List.mem_cons_of_mem x hy))
        (fun y hy => hescape y (List.mem_cons_of_mem x hy)) heq
    · cases rest with
      | nil =>
        rw [List.append_nil] at heq
        -- the cut is right at the end of the piece
        have hshown := faceAfter_shown_append hx' []
        rw [List.append_nil, heq] at hshown
        exact hshown
      | cons c rest =>
        have hc : isSpace c = true := hafter c rfl
        have hmem : c ∈ x.shown := heq ▸ List.mem_append_right before List.mem_cons_self
        rcases hx.sort with hb | hk
        · -- a blank piece has no face, and a piece of ink has no space to be cut at
          have hshown : x.shown = x.text := by
            rw [shown, hx.face_eq hb]
            rfl
          refine Text.faceAfter_of_escape_not_mem none fun hescape => hx' ?_
          rw [← hshown, heq]
          exact List.mem_append_left _ hescape
        · have hink := Text.isInk_iff.mp (Text.isInk_showIn x.face hk) c hmem
          rw [hc] at hink
          exact Bool.noConfusion hink

end Piece

/-! ## The text of a page -/

namespace Page

variable {p : Page} {op : Operation} {ops : List Operation}

/-- The pieces on a page as those of a single line, with the line ends among them. -/
def tape (p : Page) : List Piece :=
  p.currentLine ++ p.finished.flatMap fun line => Piece.lineEnd :: line

/-- The pieces of the text of a page, with the line ends among them, the latest first. -/
def textPieces (p : Page) : List Piece :=
  p.tape.dropWhile Piece.isBlank

/-- On the tape of a page there are line ends and the pieces of the page. -/
theorem eq_of_mem_tape {x : Piece} (h : x ∈ p.tape) : x = Piece.lineEnd ∨ x ∈ p.pieces := by
  rcases List.mem_append.mp h with h | h
  · exact Or.inr (List.mem_append_left _ h)
  · obtain ⟨line, hline, h⟩ := List.mem_flatMap.mp h
    rcases List.mem_cons.mp h with rfl | h
    · exact Or.inl rfl
    · exact Or.inr (List.mem_append_right _ (List.mem_flatten.mpr ⟨line, hline, h⟩))

/-- The tape of a proper page holds pure pieces. -/
theorem Proper.isPure_of_mem_tape (h : p.Proper) {x : Piece} (hx : x ∈ p.tape) : x.IsPure := by
  rcases eq_of_mem_tape hx with rfl | hx
  · exact Piece.isPure_lineEnd
  · exact h.isPure x hx

/-- The text of a proper page holds pure pieces, as a part of its tape. -/
theorem Proper.isPure_of_mem_textPieces (h : p.Proper) {x : Piece} (hx : x ∈ p.textPieces) :
    x.IsPure :=
  h.isPure_of_mem_tape ((List.dropWhile_sublist Piece.isBlank).mem hx)

/-- What is shown of lines with their ends is what is shown of one line that they make up. The
latest line stands first among the lines and last in the text. -/
theorem showLine_flatMap_lineEnd (lines : List (List Piece)) :
    Piece.showLine (lines.flatMap fun line => Piece.lineEnd :: line) =
      lines.reverse.flatMap fun line => Piece.showLine line ++ ['\n'] := by
  induction lines with
  | nil => rfl
  | cons line lines ih =>
    rw [List.flatMap_cons, Piece.showLine_append, ih, List.reverse_cons, List.flatMap_append,
      List.flatMap_singleton, Piece.showLine_cons]
    rfl

/-- What is shown of a page is its tape: the line feeds between the lines are pieces of it. -/
theorem shown_eq_showLine (p : Page) : p.shown = Piece.showLine p.tape := by
  rw [shown, tape, Piece.showLine_append, showLine_flatMap_lineEnd]

/-- The text of a page is what is shown of its pieces. -/
theorem text_eq_showLine (h : p.Proper) : p.text = Piece.showLine p.textPieces := by
  rw [text, shown_eq_showLine, textPieces,
    Piece.stripRight_showLine fun _ hx => h.isPure_of_mem_tape hx]

/-- The tape of a page without its faces is the tape of the page without the faces of its pieces. -/
theorem tape_bare (p : Page) : p.bare.tape = p.tape.map Piece.bare := by
  have hlines : p.bare.finished.flatMap (fun line => Piece.lineEnd :: line) =
      (p.finished.flatMap fun line => Piece.lineEnd :: line).map Piece.bare := by
    rw [List.map_flatMap, bare, List.flatMap_map]
    rfl
  rw [tape, currentLine_bare, hlines, tape, List.map_append]

/-- Without its faces, the text of a page are the characters of its pieces. -/
theorem text_bare (h : p.Proper) : p.bare.text = Piece.lineText p.textPieces := by
  rw [text, shown_eq_showLine, tape_bare, Piece.showLine_map_bare, textPieces,
    Piece.lineText_dropWhile fun _ hx => h.isPure_of_mem_tape hx]

/-- What is left of the text of a page without its control sequences are the characters of its
lines, without the empty lines at the end.

**Proof sketch.** Erasing the control sequences is taking the faces off, as no piece holds an escape
character. The page without faces is trimmed and pure too, and shows the characters of its lines. -/
theorem eraseControls_text (h : p.Proper) (htrim : p.Trimmed)
    (hescape : ∀ x ∈ p.pieces, '\x1b' ∉ x.text) :
    Text.eraseControls p.text =
      Text.join ['\n'] ((p.lines.map Piece.lineText).rdropWhile List.isEmpty) := by
  have hnone : ∀ x ∈ p.textPieces, '\x1b' ∉ x.text := by
    intro x hx
    rcases eq_of_mem_tape ((List.dropWhile_sublist Piece.isBlank).mem hx) with rfl | hx
    · exact (by decide : '\x1b' ∉ Piece.lineEnd.text)
    · exact hescape x hx
  have hpure : ∀ x ∈ p.bare.pieces, x.IsPure := by
    intro x hx
    rw [pieces_bare] at hx
    obtain ⟨y, hy, rfl⟩ := List.mem_map.mp hx
    exact ⟨(h.isPure y hy).ne_nil, (h.isPure y hy).sort, fun _ => rfl⟩
  have hbare : p.bare.Trimmed := by
    intro line hline
    obtain ⟨line, hmem, rfl⟩ := List.mem_map.mp hline
    rw [List.dropWhile_map, Piece.isBlank_comp_bare, htrim line hmem]
  have hlines : p.bare.lines.map Piece.showLine = p.lines.map Piece.lineText := by
    rw [lines_bare, List.map_map]
    exact List.map_congr_left fun line _ => Piece.showLine_map_bare line
  rw [text_eq_showLine h, Piece.eraseControls_showLine hnone, ← text_bare h, text_eq hpure hbare,
    hlines]

/-- The line ends on a tape have no ink, so that it has the ink of the lines. -/
theorem inked_flatMap_lineEnd (lines : List (List Piece)) :
    Piece.inked (lines.flatMap fun line => Piece.lineEnd :: line) = Piece.inked lines.flatten := by
  induction lines with
  | nil => rfl
  | cons line lines ih =>
    rw [List.flatMap_cons, Piece.inked_append, ih, Piece.inked_cons, List.flatten_cons,
      Piece.inked_append]
    exact congrArg (Piece.inked lines.flatten ++ ·) (List.append_nil (Piece.inked line))

/-- The pieces of ink of the text of a page are those on the page. -/
theorem inked_textPieces (p : Page) : Piece.inked p.textPieces = p.inked := by
  rw [textPieces, Piece.inked_dropWhile, tape, Piece.inked_append, inked_flatMap_lineEnd, inked,
    pieces, Piece.inked_append]

/-- In the text of a page no blank has a face, and no line ends in one. The text is what is shown of
pure pieces, so a place before a blank is behind the whole of a piece of ink. -/
theorem faceAfter_text (h : p.Proper) (hescape : ∀ x ∈ p.inked, '\x1b' ∉ x.text)
    {before after : Text} (heq : p.text = before ++ after)
    (hafter : ∀ c ∈ after.head?, isSpace c = true) : Text.faceAfter none before = none := by
  have hpure : ∀ x ∈ p.textPieces.reverse, x.IsPure :=
    fun x hx => h.isPure_of_mem_textPieces (List.mem_reverse.mp hx)
  have hnone : ∀ x ∈ p.textPieces.reverse, '\x1b' ∉ x.text := by
    intro x hx
    by_cases hb : x.isBlank = true
    · exact Text.escape_not_mem_of_isBlank hb
    · refine hescape x ?_
      rw [← inked_textPieces]
      exact List.mem_filter.mpr ⟨hx, by simpa using hb⟩
  rw [text_eq_showLine h] at heq
  exact Piece.faceAfter_of_flatMap_shown hpure hnone heq hafter

/-! ## What operations put on a page -/

namespace Operation

/-- The style after an operation. -/
def restyle (style : Style) : Operation → Style
  | setStyle font value => style.set font value
  | plainStyle => .plain
  | _ => style

/-- The pieces of ink that operations put on a page: the texts that they append, unless they are
blank, each in the face of the style at that time. -/
def inked (style : Style) : List Operation → List Piece
  | [] => []
  | op :: ops => (op.texts.map fun t => ⟨t, style.face?⟩) ++ inked (op.restyle style) ops

/-- What clean operations put on a page has no escape character in it. Each piece has the text of
one operation, in the face of its moment. -/
theorem escape_not_mem_of_mem_inked {style : Style} (h : ∀ op ∈ ops, op.IsClean) {x : Piece}
    (hx : x ∈ inked style ops) : '\x1b' ∉ x.text := by
  induction ops generalizing style with
  | nil => exact absurd hx List.not_mem_nil
  | cons op ops ih =>
    rcases List.mem_append.mp hx with hx | hx
    · obtain ⟨t, ht, rfl⟩ := List.mem_map.mp hx
      exact (h op List.mem_cons_self).escape_not_mem ht
    · exact ih (fun o ho => h o (List.mem_cons_of_mem op ho)) hx

end Operation

/-- The style of a page after an operation follows from the style before it and the operation alone.

**Proof sketch.** By cases on the operation. Output leaves the settings alone, hence the style; the
others say themselves what they make of it. -/
theorem style_perform (p : Page) (op : Operation) : (p.perform op).style = op.restyle p.style := by
  have hstyle : ∀ {q : Page}, q.settings = p.settings → q.style = p.style :=
    fun h => congrArg Settings.style h
  cases op with
  | append t => exact hstyle (settings_append p t)
  | appendSpace => exact hstyle (settings_appendSpace p)
  | breakLine => exact hstyle (settings_breakLine p)
  | lineBreak => exact hstyle (settings_lineBreak p)
  | blankLine => exact hstyle (settings_blankLine p)
  | openWord => exact hstyle (settings_openWord p)
  | closeWord => exact hstyle (settings_closeWord p)
  | popMargin =>
    simp only [perform, popMargin?]
    cases p.margins <;> rfl
  | setStyle | plainStyle | setNoFill | setIndent | storeIndent | forgetIndent | pushMargin
  | clearMargins | sectionMargin => rfl

/-- A text that is appended is put on the page in the face of its style, unless it is blank.

**Proof sketch.** A blank text adds no ink wherever it is put, and breaks move none. Any other text
is put once, on this line or the next, and in the style from before, which a break does not change.
-/
theorem inked_append (p : Page) (t : Text) :
    (p.append t).inked = p.inked ++ t.visible.map fun u => ⟨u, p.style.face?⟩ := by
  by_cases hb : t.isBlank = true
  · have hpiece : ∀ face, Piece.isBlank ⟨t, face⟩ = true := fun _ => hb
    have hput : ∀ q : Page, (q.put t).inked = q.inked := fun q => by
      rw [inked_put, Piece.inked_singleton_of_isBlank (hpiece _), List.append_nil]
    rw [Text.visible_of_isBlank hb, List.map_nil, List.append_nil]
    rcases append_eq p t with heq | heq | heq | heq <;> simp only [heq, hput, inked_breakLine]
  · have hpiece : ∀ face, ¬ Piece.isBlank ⟨t, face⟩ = true := fun _ => hb
    have hput : ∀ q : Page, q.style = p.style →
        (q.put t).inked = q.inked ++ [⟨t, p.style.face?⟩] := by
      intro q hq
      rw [inked_put, Piece.inked_singleton_of_not_isBlank (hpiece _), Style.faceOf, if_neg hb, hq]
    rw [Text.visible, if_neg hb, List.map_singleton]
    rcases append_of_not_isBlank (p := p) hb with heq | heq
    · rw [heq, hput p rfl]
    · rw [heq, hput p.breakLine rfl, inked_breakLine]

/-- A space leaves the ink of a page as it is. -/
theorem inked_appendSpace (p : Page) : p.appendSpace.inked = p.inked := by
  unfold appendSpace
  split
  · rfl
  · exact (inked_append p [' ']).trans (List.append_nil p.inked)

/-- The end of a line leaves the ink of a page as it is. -/
theorem inked_lineBreak (hp : p.Proper) : p.lineBreak.inked = p.inked := by
  unfold lineBreak
  split
  · rename_i hblank
    exact inked_startLine hp hblank
  · exact inked_breakLine p

/-- An empty line leaves the ink of a page as it is. -/
theorem inked_blankLine (hp : p.Proper) : p.blankLine.inked = p.inked := by
  unfold blankLine
  split
  · rename_i hblank
    exact inked_startLine hp hblank
  · rw [inked_breakLine, inked_breakLine]

/-- Closing a block leaves the ink of a page as it is, whatever becomes of the word. -/
theorem inked_closeWord (p : Page) : p.closeWord.inked = p.inked := by
  unfold closeWord
  split
  · rfl
  · split
    · exact inked_completeWord { p with blocks := _ }
    · rfl

/-- An operation puts on a page what it appends, in the face of the style, and no other ink.

**Proof sketch.** By cases on the operation, with one equation for each that touches the lines;
where nothing is appended, no ink is added. -/
theorem inked_perform (hp : p.Proper) (op : Operation) :
    (p.perform op).inked = p.inked ++ op.texts.map fun t => ⟨t, p.style.face?⟩ := by
  cases op with
  | append t => exact inked_append p t
  | appendSpace => exact (inked_appendSpace p).trans (List.append_nil p.inked).symm
  | breakLine => exact (inked_breakLine p).trans (List.append_nil p.inked).symm
  | lineBreak => exact (inked_lineBreak hp).trans (List.append_nil p.inked).symm
  | blankLine => exact (inked_blankLine hp).trans (List.append_nil p.inked).symm
  | openWord => exact (inked_openWord p).trans (List.append_nil p.inked).symm
  | closeWord => exact (inked_closeWord p).trans (List.append_nil p.inked).symm
  | popMargin =>
    refine Eq.trans ?_ (List.append_nil p.inked).symm
    simp only [perform, popMargin?]
    cases p.margins <;> rfl
  | setStyle | plainStyle | setNoFill | setIndent | storeIndent | forgetIndent | pushMargin
  | clearMargins | sectionMargin => exact (List.append_nil p.inked).symm

/-- The pieces of ink on a page are those that were put there. By induction on the operations:
breaks and words that are carried over move pieces and drop blank ones only. -/
theorem inked_performAll (hp : p.Proper) (h : ∀ op ∈ ops, op.IsClean) :
    (p.performAll ops).inked = p.inked ++ Operation.inked p.style ops := by
  induction ops generalizing p with
  | nil => exact (List.append_nil p.inked).symm
  | cons op ops ih =>
    have hfirst := (becomes_perform p (h op List.mem_cons_self)).proper hp
    have hmore := ih hfirst fun o ho => h o (List.mem_cons_of_mem op ho)
    rw [inked_perform hp, style_perform, List.append_assoc] at hmore
    exact hmore

/-! ## Styles -/

/-- **Styles are decoration.** Operations carried out with and without those that change the style
lead to pages that agree in all but the faces. The texts of both consist of the same pieces of
blanks and of ink, which are their characters on the one page and are shown in their faces on the
other. The pieces of ink are the texts that were appended, in the faces that they were appended in,
and no blank and no line end is shown in a face.

**Proof sketch.** The page without styles is the page with them when its faces are taken off. So
the two texts are those of one page, with and without faces. -/
theorem decorated_performAll (width : Int) (ops : List Operation)
    (h : ∀ op ∈ ops, op.IsClean) :
    let styled := (ofWidth width).performAll ops
    let plain := (ofWidth width).performAll (ops.filter fun op => !op.isStyling)
    (styled.lineLength = plain.lineLength ∧ styled.isLineBlank = plain.isLineBlank ∧
      styled.indent = plain.indent ∧ styled.storedIndent = plain.storedIndent ∧
      styled.margins = plain.margins ∧ styled.noFill = plain.noFill) ∧
    (∃ pieces : List Piece, (∀ x ∈ pieces, x.IsPure) ∧
      plain.text = Piece.lineText pieces ∧ styled.text = Piece.showLine pieces ∧
      Piece.inked pieces = Operation.inked .plain ops) ∧
    ∀ before after : Text, styled.text = before ++ after →
      (∀ c ∈ after.head?, isSpace c = true) → Text.faceAfter none before = none := by
  intro styled plain
  have hplain : plain = styled.bare := (bare_performAll_ofWidth width ops).symm
  have hproper : styled.Proper := (becomes_performAll _ h).proper (proper_ofWidth width)
  have hinked : styled.inked = Operation.inked .plain ops :=
    inked_performAll (proper_ofWidth width) h
  refine ⟨?_, ⟨styled.textPieces, ?_, ?_, text_eq_showLine hproper, ?_⟩, ?_⟩
  · rw [hplain]
    exact ⟨rfl, rfl, rfl, rfl, rfl, rfl⟩
  · exact fun x hx => hproper.isPure_of_mem_textPieces hx
  · rw [hplain, text_bare hproper]
  · rw [inked_textPieces, hinked]
  · intro before after heq hafter
    refine faceAfter_text hproper (fun x hx => ?_) heq hafter
    rw [hinked] at hx
    exact Operation.escape_not_mem_of_mem_inked h hx

/-- A word that becomes bold in its midst and is carried over as a whole. -/
theorem decorated_of_carried_word :
    let ops : List Operation :=
      [.pushMargin 2, .append "ab".toList, .appendSpace, .openWord, .append "cd".toList,
        .setStyle .italic true, .setStyle .bold true, .append "ef".toList, .plainStyle, .closeWord]
    let styled := (ofWidth 6).performAll ops
    let plain := (ofWidth 6).performAll (ops.filter fun op => !op.isStyling)
    ((∀ op ∈ ops, op.IsClean) ∧ plain.text = "ab\n  cdef".toList ∧
      styled.text = "ab\n  cd\x1b[1mef\x1b[0m".toList) ∧
    (styled.lineLength = plain.lineLength ∧ styled.isLineBlank = plain.isLineBlank ∧
      styled.indent = plain.indent ∧ styled.storedIndent = plain.storedIndent ∧
      styled.margins = plain.margins ∧ styled.noFill = plain.noFill) ∧
    (∃ pieces : List Piece, (∀ x ∈ pieces, x.IsPure) ∧
      plain.text = Piece.lineText pieces ∧ styled.text = Piece.showLine pieces ∧
      Piece.inked pieces = [⟨"ab".toList, none⟩, ⟨"cd".toList, none⟩, ⟨"ef".toList, some .bold⟩]) ∧
    ∀ before after : Text, styled.text = before ++ after →
      (∀ c ∈ after.head?, isSpace c = true) → Text.faceAfter none before = none :=
  ⟨⟨by decide, by decide, by decide⟩, decorated_performAll 6 _ (by decide)⟩

end Page

end Manpage

import Manpage.Proofs.Page.Ink

/-!
# Pieces that stay together

Pieces that were put into one open word stand side by side in the word. They are carried over with
it, or put on the line with it, and the line they stand on is ended at some time. Nothing that
becomes of the page puts anything between them. So they are shown side by side on one line, behind
the ink that stood before them.

## Main definitions

* `Manpage.Piece.Together` — pieces side by side on one of several lines.
* `Manpage.Page.rows` — the open word, the current line and the finished lines of a page.

## Main results

* `Manpage.Page.Becomes.together` — pieces stay together, whatever becomes of the page.
* `Manpage.Page.Proper.exists_text_eq` — they are shown together in the text of the page.
-/

namespace Manpage

namespace Piece

variable {ps : List Piece} {before : List Text} {w line : List Piece} {lines : List (List Piece)}

/-- What is shown of a line without blanks joins its texts. -/
theorem joins_showLine (ps : List Piece) : Text.Joins (ps.reverse.map text) (showLine ps) := by
  induction ps with
  | nil => exact .nil
  | cons x ps ih =>
    rw [List.reverse_cons, List.map_append, showLine_cons]
    exact ih.append (.single x.face x.text)

/-! ## Pieces on lines -/

/-- Pieces that stand side by side on one of several lines, with the given ink before them. Of
lines and pieces the latest come first. -/
inductive Together (ps : List Piece) (before : List Text) : List (List Piece) → Prop
  | here {line : List Piece} {lines : List (List Piece)} (later earlier : List Piece)
      (hline : line = later ++ (ps ++ earlier))
      (hbefore : inks (earlier ++ lines.flatten) = before) : Together ps before (line :: lines)
  | there {line : List Piece} {lines : List (List Piece)} (h : Together ps before lines) :
      Together ps before (line :: lines)

namespace Together

/-- More pieces at the end of the latest line. -/
theorem prepend (h : Together ps before (line :: lines)) (w : List Piece) :
    Together ps before ((w ++ line) :: lines) := by
  cases h with
  | here later earlier hline hbefore =>
    exact here (w ++ later) earlier (by rw [hline, List.append_assoc]) hbefore
  | there h => exact there h

/-- Two lines that are put together. The pieces are on the latest of the two, on the other one, or
further down. -/
theorem merge (h : Together ps before (w :: line :: lines)) :
    Together ps before ((w ++ line) :: lines) := by
  cases h with
  | here later earlier hline hbefore =>
    refine here later (earlier ++ line) ?_ ?_
    · rw [hline]
      simp only [List.append_assoc]
    · rwa [List.append_assoc, ← List.flatten_cons]
  | there h => exact h.prepend w

/-- The blank pieces at the end of the latest line are none of those that stand together. They are
of ink, so that nothing is dropped from them on. -/
theorem dropWhile (h : Together ps before (line :: lines)) (hne : ps ≠ [])
    (hps : ∀ x ∈ ps, x.isBlank = false) :
    Together ps before (line.dropWhile isBlank :: lines) := by
  cases h with
  | here later earlier hline hbefore =>
    refine here (later.dropWhile isBlank) earlier ?_ hbefore
    obtain ⟨x, xs, rfl⟩ := List.exists_cons_of_ne_nil hne
    have hx : ¬ x.isBlank = true := by simp [hps x List.mem_cons_self]
    subst hline
    induction later with
    | nil => exact List.dropWhile_cons_of_neg hx
    | cons y later ih =>
      rw [List.cons_append, List.dropWhile_cons, List.dropWhile_cons]
      split
      · exact ih
      · rfl
  | there h => exact there h

/-- The latest line becomes the end of a fresh one, and the line before it is ended. Blanks that are
dropped at the end of a line or added before it are no ink, so the pieces stay together where they
are. -/
theorem carry (h : Together ps before (w :: line :: lines)) (hne : ps ≠ [])
    (hps : ∀ x ∈ ps, x.isBlank = false) (n : Nat) :
    Together ps before
      ((w ++ List.replicate n space) :: line.dropWhile isBlank :: lines) := by
  cases h with
  | here later earlier hline hbefore =>
    refine here later (earlier ++ List.replicate n space) ?_ ?_
    · rw [hline]
      simp only [List.append_assoc]
    · rw [← hbefore]
      simp only [List.flatten_cons, inks_append, inks_dropWhile, inks_replicate_space,
        List.nil_append, List.append_assoc]
  | there h => exact there (h.dropWhile hne hps)

/-- The pieces do not stand on a line without ink. -/
theorem of_inks_eq_nil (h : Together ps before (line :: lines)) (hne : inks ps ≠ [])
    (hline : inks line = []) : Together ps before lines := by
  cases h with
  | here later earlier heq _ =>
    rw [heq, inks_append, inks_append, List.append_eq_nil_iff, List.append_eq_nil_iff] at hline
    exact absurd hline.1.2 hne
  | there h => exact h

/-- The lines are shown with the pieces side by side: before them the ink that stood there, and
after them the rest.

**Proof sketch.** By induction on where they stand. On their own line they are shown between what is
earlier and what is later there; a later line is put behind the rest, and moves nothing. -/
theorem exists_lines_eq (h : Together ps before lines) (hpure : ∀ x ∈ lines.flatten, x.IsPure) :
    ∃ (a b : Text) (after : List Text),
      (lines.reverse.flatMap fun l => showLine l ++ ['\n']) = a ++ (showLine ps ++ b) ∧
        inks lines.flatten = before ++ (inks ps ++ after) ∧
        Text.Shows before a ∧ Text.Shows after b := by
  have hfeed : Text.Shows [] ['\n'] := .of_isBlank (by decide)
  induction h with
  | @here line lines later earlier hline hbefore =>
    subst hline
    have hlines : Text.Shows (inks lines.flatten) _ :=
      shows_lines fun x hx => hpure x (by simp [hx])
    have hearlier : Text.Shows (inks earlier) _ := shows_showLine fun x hx => hpure x (by simp [hx])
    have hlater : Text.Shows (inks later) _ := shows_showLine fun x hx => hpure x (by simp [hx])
    have ha := hlines.append hearlier
    rw [← inks_append, hbefore] at ha
    -- the lines before and the start of this line are before the pieces, its end is behind them
    refine ⟨_, _, _, ?_, ?_, ha, hlater.append hfeed⟩
    · simp only [List.reverse_cons, List.flatMap_append, List.flatMap_singleton, showLine_append,
        List.append_assoc]
    · rw [← hbefore]
      simp only [List.flatten_cons, inks_append, List.append_assoc, List.append_nil]
  | @there line lines h ih =>
    rw [List.flatten_cons] at hpure
    obtain ⟨a, b, after, hlines, hinks, ha, hb⟩ :=
      ih fun x hx => hpure x (List.mem_append_right _ hx)
    -- the line is behind the pieces, with a line feed
    have hline := shows_showLine fun x hx => hpure x (List.mem_append_left _ hx)
    refine ⟨a, _, _, ?_, ?_, ha, hb.append (hline.append hfeed)⟩
    · rw [List.reverse_cons, List.flatMap_append, List.flatMap_singleton, hlines]
      simp only [List.append_assoc]
    · rw [List.flatten_cons, inks_append, hinks]
      simp only [List.append_assoc, List.append_nil]

end Together

end Piece

/-! ## Pieces on a page -/

namespace Page

variable {p q r : Page} {ps qs : List Piece} {ts us before : List Text}

/-- The lines of a page, the latest first, with the open word as a line of its own. -/
def rows (p : Page) : List (List Piece) :=
  p.word.elim [] OpenWord.pieces :: p.line :: p.finished

/-- Where no word is open, the first row of a page is empty. -/
theorem rows_of_none (h : p.word = none) : p.rows = [] :: p.line :: p.finished := by
  rw [rows, h]
  rfl

/-- Where a word is open, its pieces are the first row of a page. -/
theorem rows_of_word {w : OpenWord} (h : p.word = some w) :
    p.rows = w.pieces :: p.line :: p.finished := by
  rw [rows, h]
  rfl

/-- The open word belongs to the current line. The row of the word and that of the line are put
together. -/
theorem together_currentLine (h : Piece.Together ps before p.rows) :
    Piece.Together ps before (p.currentLine :: p.finished) := by
  cases hw : p.word with
  | none =>
    rw [rows_of_none hw] at h
    rw [currentLine, hw]
    exact h.merge
  | some w =>
    rw [rows_of_word hw] at h
    rw [currentLine_of_word hw]
    exact h.merge

/-- Pieces of ink stay together, whatever becomes of the page, and behind the same ink.

**Proof sketch.** A line that is started afresh had no ink. A line that is ended loses blanks at its
end. A text is put behind the pieces of its line or word, and a word that is completed becomes the
end of a line. -/
theorem Becomes.together (h : Becomes p ts q) (hp : p.Proper) (hne : ps ≠ [])
    (hps : ∀ x ∈ ps, x.isBlank = false) (htogether : Piece.Together ps before p.rows) :
    Piece.Together ps before q.rows := by
  have hinks : Piece.inks ps ≠ [] := by
    obtain ⟨x, xs, rfl⟩ := List.exists_cons_of_ne_nil hne
    have hx : x.text.isBlank = false := hps x List.mem_cons_self
    simp [Text.visible, hx]
  induction h with
  | @sameLines p q h =>
    have hrows : q.rows = p.rows := by rw [rows, rows, h.word_eq, h.line_eq, h.finished_eq]
    rw [hrows]
    exact htogether
  | @startLine p hblank =>
    -- a blank line holds none of the pieces, so they are together on an earlier one
    have hcurrent : Piece.inks p.currentLine = [] :=
      Piece.inks_of_isBlank (hp.accounted.isLineBlank_eq ▸ hblank)
    have hfinished := (together_currentLine htogether).of_inks_eq_nil hinks hcurrent
    exact .there (.there hfinished)
  | breakLine p => exact .there (.there ((together_currentLine htogether).dropWhile hne hps))
  | @put p t _ _ =>
    cases hw : p.word with
    | none =>
      -- without an open word its row is empty, so the pieces are on a row below it
      rw [rows_of_none hw] at htogether
      rw [rows_of_none (word_put_of_none hw), line_put_of_none hw, finished_put]
      have hline := htogether.of_inks_eq_nil hinks rfl
      exact .there (hline.prepend [⟨t, p.style.faceOf t⟩])
    | some w =>
      rw [rows_of_word hw] at htogether
      rw [rows_of_word (word_put_of_some hw), line_put_of_some hw, finished_put]
      exact htogether.prepend [⟨t, p.style.faceOf t⟩]
  | openWord hw =>
    rw [rows_of_none hw] at htogether
    rw [openWord_of_none hw]
    exact htogether
  | @completeWord p w hw =>
    rw [rows_of_word hw] at htogether
    -- the word joins the current line, or it is carried over to a new one as a whole
    rcases completeWord_cases hw with ⟨heq, -⟩ | heq
    · rw [heq]
      exact .there htogether.merge
    · rw [heq]
      exact .there (htogether.carry hne hps _)
  | trans hpq _ ih ih' => exact ih' (hpq.proper hp) (ih hp htogether)

/-- Pieces of ink that stay together are shown together in the text of a page, on one line: before
them the ink that stood there, and after them the rest.

**Proof sketch.** The lines are shown with the pieces side by side. The text is what is shown
without the blanks at the end, and these are behind the pieces, as the last of them ends in ink. -/
theorem Proper.exists_text_eq (h : p.Proper) (hne : ps ≠ []) (hps : ∀ x ∈ ps, x.isBlank = false)
    (htogether : Piece.Together ps before p.rows) :
    ∃ (a b : Text) (after : List Text), p.text = a ++ (Piece.showLine ps ++ b) ∧
      p.inks = before ++ (Piece.inks ps ++ after) ∧
      Text.Shows before a ∧ Text.Shows after b := by
  obtain ⟨x, xs, rfl⟩ := List.exists_cons_of_ne_nil hne
  obtain ⟨a, b, after, hlines, hinks, ha, hb⟩ :=
    (together_currentLine htogether).exists_lines_eq h.isPure
  have hinks : p.inks = before ++ (Piece.inks (x :: xs) ++ after) := hinks
  have hmem : ∀ t ∈ after, t.isInk = true ∧ t ≠ [] :=
    fun t ht => h.isInk_of_mem_inks (by rw [hinks]; simp [ht])
  have hx : x.text.isInk = true ∧ x.text ≠ [] := by
    have hblank : x.text.isBlank = false := hps x List.mem_cons_self
    have hvisible : x.text.visible = [x.text] := if_neg (by simp [hblank])
    exact h.isInk_of_mem_inks (by rw [hinks, Piece.inks_cons, hvisible]; simp)
  refine ⟨a, b.stripRight, after, ?_, hinks, ha, hb.stripRight hmem⟩
  -- the line feed behind the last line is stripped with the blanks there
  have hshown : p.shown ++ ['\n'] = a ++ (Piece.showLine (x :: xs) ++ b) := by
    rw [← hlines, List.reverse_cons, List.flatMap_append, List.flatMap_singleton, shown,
      List.append_assoc]
  have htext : p.text = (p.shown ++ ['\n']).stripRight :=
    (Text.stripRight_append_of_isBlank _ (by decide)).symm
  have hstrip := Text.Shows.stripRight_append_showIn_append x.face hx.1 hx.2
    (a ++ Piece.showLine xs) b
  rw [htext, hshown, Piece.showLine_cons]
  simpa only [Piece.shown, List.append_assoc] using hstrip

/-! ## Words -/

/-- Pieces of ink with the given texts are put into the open word, and the lines stay as they
are. -/
structure Gathers (p : Page) (ps : List Piece) (ts : List Text) (q : Page) : Prop where
  word_eq : ∀ w, p.word = some w → q.word = some { w with pieces := ps ++ w.pieces }
  line_eq : q.line = p.line
  finished_eq : q.finished = p.finished
  texts_eq : ps.reverse.map Piece.text = ts
  not_isBlank : ∀ x ∈ ps, x.isBlank = false

namespace Gathers

/-- A change of settings gathers nothing. -/
theorem of_sameLines (h : p.SameLines q) : p.Gathers [] [] q :=
  ⟨fun _ hw => h.word_eq.trans hw, h.line_eq, h.finished_eq, rfl, by simp⟩

/-- What is gathered one after another is gathered together, the later pieces in front. -/
theorem trans (h : p.Gathers ps ts q) (h' : q.Gathers qs us r) :
    p.Gathers (qs ++ ps) (ts ++ us) r := by
  refine ⟨fun w hw => ?_, h'.line_eq.trans h.line_eq, h'.finished_eq.trans h.finished_eq, ?_, ?_⟩
  · rw [h'.word_eq _ (h.word_eq w hw), List.append_assoc]
  · rw [List.reverse_append, List.map_append, h.texts_eq, h'.texts_eq]
  · intro x hx
    rcases List.mem_append.mp hx with hx | hx
    · exact h'.not_isBlank x hx
    · exact h.not_isBlank x hx

/-- A text of ink that is appended while a word is open is put into the word, whatever the width
is. -/
theorem append {t : Text} {w : OpenWord} (hink : t.isInk = true) (hne : t ≠ [])
    (hw : p.word = some w) : p.Gathers [⟨t, p.style.faceOf t⟩] [t] (p.append t) := by
  rw [append_ink_of_word hne hink hw]
  refine ⟨fun _ hw => word_put_of_some hw, line_put_of_some hw, finished_put p t, rfl, ?_⟩
  intro x hx
  obtain rfl := List.mem_singleton.mp hx
  exact Text.isBlank_eq_false_of_isInk hink hne

end Gathers

/-- **A word stays whole.** What is put into a word is shown in one piece, whatever becomes of the
page: before it the ink that was there, and after it what comes onto the page later.

**Proof sketch.** While the word is open its pieces stand together behind the line. They stay
together in whatever becomes of the page, so that they are shown together; counting the ink shows
that what stands behind them came later. -/
theorem exists_text_eq_of_gathers (hw : p.word = none)
    (hword : p.openWord.Gathers ps ts q) (hne : ps ≠ []) (hq : q.Proper) (h : Becomes q us r) :
    ∃ a s b : Text, r.text = a ++ (s ++ b) ∧ Text.Shows p.inks a ∧ Text.Joins ts s ∧
      Text.Shows us b := by
  have hqword : q.word = some ⟨ps ++ [], !p.isLineBlank⟩ :=
    hword.word_eq ⟨[], !p.isLineBlank⟩ (by rw [openWord_of_none hw])
  have hqline : q.line = p.line := by rw [hword.line_eq, openWord_of_none hw]
  have hqfinished : q.finished = p.finished := by rw [hword.finished_eq, openWord_of_none hw]
  rw [List.append_nil] at hqword
  have htogether : Piece.Together ps p.inks q.rows := by
    rw [rows_of_word hqword, hqline, hqfinished]
    refine .here [] [] (by simp) ?_
    rw [inks, pieces, currentLine_of_none hw]
    rfl
  obtain ⟨a, b, after, htext, hinks, ha, hb⟩ := (h.proper hq).exists_text_eq hne hword.not_isBlank
    (h.together hq hne hword.not_isBlank htogether)
  have hqinks : q.inks = p.inks ++ Piece.inks ps := by
    rw [inks, pieces, currentLine_of_word hqword, hqline, hqfinished, inks, pieces,
      currentLine_of_none hw]
    simp only [Piece.inks_append, List.append_assoc]
  obtain rfl : us = after := by
    rw [h.inks_eq hq, hqinks, List.append_assoc, List.append_cancel_left_eq,
      List.append_cancel_left_eq] at hinks
    exact hinks
  exact ⟨a, Piece.showLine ps, b, htext, ha, hword.texts_eq ▸ Piece.joins_showLine ps, hb⟩

end Page

end Manpage

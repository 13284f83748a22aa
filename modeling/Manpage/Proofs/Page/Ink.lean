import Manpage.Proofs.Page.Become
import Manpage.Proofs.Text.Shown

/-!
# The ink on a page

Wherever lines are broken, carried over and padded, the texts of ink on a page are those that came
onto it, in order. Blanks come and go, ink stays. What is shown of a page shows these texts.

## Main definitions

* `Manpage.Piece.inked`, `Manpage.Page.inked` — the pieces of ink of a line and of a page, in order.
* `Manpage.Piece.inks`, `Manpage.Page.inks` — their texts.
* `Manpage.Page.Proper` — a page whose pieces are pure, with its extent accounted for.

## Main results

* `Manpage.Page.Becomes.inks_eq` — the ink on a page grows by what comes onto it.
* `Manpage.Page.Proper.shows_text` — the text of a page shows the ink on it.
-/

namespace Manpage

/-! ## Ink of a line -/

namespace Piece

variable {x : Piece} {xs ys : List Piece}

/-- The pieces that are not blank, in the order in which they stand. -/
def inked (pieces : List Piece) : List Piece :=
  pieces.reverse.filter fun x => !x.isBlank

/-- The ink of two rows of pieces is that of the earlier row and then that of the later one. -/
@[simp] theorem inked_append (xs ys : List Piece) : inked (xs ++ ys) = inked ys ++ inked xs := by
  simp [inked]

/-- The ink of the latest piece comes behind that of the others. -/
theorem inked_cons (x : Piece) (xs : List Piece) : inked (x :: xs) = inked xs ++ inked [x] := by
  rw [← List.singleton_append, inked_append]

/-- A blank piece has no ink. -/
theorem inked_singleton_of_isBlank (h : x.isBlank = true) : inked [x] = [] := by
  simp [inked, h]

/-- A piece that is not blank is ink. -/
theorem inked_singleton_of_not_isBlank (h : ¬ x.isBlank = true) : inked [x] = [x] := by
  simp [inked, h]

/-- Spaces have no ink, however many there are. -/
@[simp] theorem inked_replicate_space (n : Nat) : inked (List.replicate n space) = [] := by
  induction n with
  | zero => rfl
  | succ n ih =>
    rw [List.replicate_succ, inked_cons, ih]
    rfl

/-- The blank pieces at the end of a line are no ink. -/
@[simp] theorem inked_dropWhile (xs : List Piece) : inked (xs.dropWhile isBlank) = inked xs := by
  induction xs with
  | nil => rfl
  | cons x xs ih =>
    rw [List.dropWhile_cons]
    split
    · rename_i hb
      rw [ih, inked_cons, inked_singleton_of_isBlank hb, List.append_nil]
    · rfl

/-- A blank line has no ink. -/
theorem inked_of_isBlank (h : (lineText xs).isBlank = true) : inked xs = [] := by
  induction xs with
  | nil => rfl
  | cons x xs ih =>
    rw [lineText_cons, Text.isBlank_append, Bool.and_eq_true] at h
    rw [inked_cons, ih h.1, inked_singleton_of_isBlank h.2, List.append_nil]

/-- The texts of the pieces that are not blank, in the order in which they stand. -/
def inks (pieces : List Piece) : List Text :=
  (pieces.reverse.filter fun x => !x.isBlank).map Piece.text

/-- The texts of ink on a line are those of its inked pieces. -/
theorem inks_eq_map (xs : List Piece) : inks xs = (inked xs).map text := rfl

/-- No pieces have no texts of ink. -/
@[simp] theorem inks_nil : inks [] = [] := rfl

/-- The texts of ink of two rows of pieces are those of the earlier row and then those of the later
one. -/
@[simp] theorem inks_append (xs ys : List Piece) : inks (xs ++ ys) = inks ys ++ inks xs := by
  simp [inks]

/-- A piece has its own text as ink, if it is seen. A piece is seen unless it is blank. -/
theorem inks_singleton (x : Piece) : inks [x] = x.text.visible := by
  unfold inks Text.visible
  rw [List.reverse_singleton, List.filter_singleton]
  cases hb : x.isBlank with
  | true =>
    have htext : x.text.isBlank = true := hb
    simp [htext]
  | false =>
    have htext : x.text.isBlank = false := hb
    simp [htext]

/-- The latest piece of a line brings its text as the last, if it is seen. -/
@[simp] theorem inks_cons (x : Piece) (xs : List Piece) :
    inks (x :: xs) = inks xs ++ x.text.visible := by
  rw [← List.singleton_append, inks_append, inks_singleton]

/-- Spaces have no texts of ink. -/
@[simp] theorem inks_replicate_space (n : Nat) : inks (List.replicate n space) = [] :=
  congrArg (List.map text) (inked_replicate_space n)

/-- Dropping the blanks at the end of a line loses no ink. -/
@[simp] theorem inks_dropWhile (xs : List Piece) : inks (xs.dropWhile isBlank) = inks xs :=
  congrArg (List.map text) (inked_dropWhile xs)

/-- A line of blanks has no texts of ink. -/
theorem inks_of_isBlank (h : (lineText xs).isBlank = true) : inks xs = [] :=
  congrArg (List.map text) (inked_of_isBlank h)

/-- What is shown of a line shows its ink. By induction on the pieces: a blank one is shown without
a face, one of ink in its own. -/
theorem shows_showLine (h : ∀ x ∈ xs, x.IsPure) : Text.Shows (inks xs) (showLine xs) := by
  induction xs with
  | nil => exact .nil
  | cons x xs ih =>
    have hx := h x List.mem_cons_self
    rw [inks_cons, showLine_cons]
    refine (ih fun y hy => h y (List.mem_cons_of_mem x hy)).append ?_
    rcases hx.sort with hb | hk
    · rw [Text.visible_of_isBlank hb, shown, hx.face_eq hb]
      exact .of_isBlank hb
    · rw [Text.visible_of_isInk hk hx.ne_nil]
      exact .single x.face x.text

/-- What is shown of the lines before the current one shows their ink. By induction on the lines,
with a line feed behind each of them. -/
theorem shows_lines {lines : List (List Piece)} (h : ∀ x ∈ lines.flatten, x.IsPure) :
    Text.Shows (inks lines.flatten) (lines.reverse.flatMap fun l => showLine l ++ ['\n']) := by
  induction lines with
  | nil => exact .nil
  | cons line lines ih =>
    rw [List.flatten_cons] at h
    rw [List.flatten_cons, inks_append, List.reverse_cons, List.flatMap_append,
      List.flatMap_singleton]
    refine (ih fun x hx => h x (List.mem_append_right _ hx)).append ?_
    rw [← List.append_nil (inks line)]
    exact (shows_showLine fun x hx => h x (List.mem_append_left _ hx)).append
      (.of_isBlank (by decide))

/-- The ink of pure pieces has no blanks. A pure piece that is not blank is of ink throughout. -/
theorem isInk_of_mem_inks (h : ∀ x ∈ xs, x.IsPure) {t : Text} (ht : t ∈ inks xs) :
    t.isInk = true ∧ t ≠ [] := by
  obtain ⟨x, hx, rfl⟩ := List.mem_map.mp ht
  obtain ⟨hmem, hb⟩ := List.mem_filter.mp hx
  have hpure := h x (List.mem_reverse.mp hmem)
  have hblank : ¬ x.text.isBlank = true := by
    intro htext
    have hx : x.isBlank = true := htext
    rw [hx] at hb
    exact Bool.noConfusion hb
  exact ⟨hpure.sort.resolve_left hblank, hpure.ne_nil⟩

end Piece

/-! ## Ink of a page -/

namespace Page

variable {p q : Page} {ts : List Text}

/-- The pieces of ink on a page, in order. -/
def inked (p : Page) : List Piece :=
  Piece.inked p.pieces

/-- The texts of ink on a page, in order. -/
def inks (p : Page) : List Text :=
  Piece.inks p.pieces

/-- The texts of ink on a page are those of its inked pieces. -/
theorem inks_eq_map (p : Page) : p.inks = p.inked.map Piece.text := rfl

/-- The pieces of the page are pure, and those on the current line are accounted for. -/
structure Proper (p : Page) : Prop where
  accounted : p.Accounted
  isPure : ∀ x ∈ p.pieces, x.IsPure

/-- An empty page is proper. -/
theorem proper_ofWidth (width : Int) : (ofWidth width).Proper :=
  ⟨accounted_ofWidth width, by simp [ofWidth, pieces, currentLine]⟩

/-- An empty page has no ink. -/
theorem inks_ofWidth (width : Int) : (ofWidth width).inks = [] := rfl

/-- A page keeps being proper, whatever becomes of it: it is accounted for, and its pieces are pure.

**Proof sketch.** By induction on what becomes of it. New pieces are the spaces of a padding or
those of texts of one sort; extents are counted along. -/
theorem Becomes.proper (h : Becomes p ts q) (hp : p.Proper) : q.Proper := by
  induction h with
  | sameLines h =>
    refine ⟨h.accounted hp.accounted, ?_⟩
    rw [h.pieces_eq]
    exact hp.isPure
  | @startLine p _ =>
    refine ⟨accounted_startLine p, fun x hx => ?_⟩
    rcases mem_pieces_startLine hx with rfl | hx
    · exact Piece.isPure_space
    · exact hp.isPure x hx
  | breakLine p =>
    refine ⟨accounted_breakLine p, fun x hx => ?_⟩
    rcases mem_pieces_breakLine hx with rfl | hx
    · exact Piece.isPure_space
    · exact hp.isPure x hx
  | @put p t hne hsort =>
    refine ⟨hp.accounted.put hne hsort, fun x hx => ?_⟩
    rcases mem_pieces_put hx with rfl | hx
    · exact Piece.isPure_faceOf hne hsort p.style
    · exact hp.isPure x hx
  | openWord hw =>
    refine ⟨hp.accounted.openWord hw, ?_⟩
    rw [pieces, currentLine_openWord hw, openWord_of_none hw]
    exact hp.isPure
  | completeWord hw =>
    refine ⟨hp.accounted.completeWord hw, fun x hx => ?_⟩
    rcases mem_pieces_completeWord hw hx with rfl | hx
    · exact Piece.isPure_space
    · exact hp.isPure x hx
  | trans _ _ ih ih' => exact ih' (ih hp)

/-- A line that is started afresh had no ink on it. -/
theorem inked_startLine (hp : p.Proper) (hblank : p.isLineBlank = true) :
    p.startLine.inked = p.inked := by
  have hcurrent : Piece.inked p.currentLine = [] :=
    Piece.inked_of_isBlank (hp.accounted.isLineBlank_eq ▸ hblank)
  rw [inked, pieces, currentLine_startLine, finished_startLine, Piece.inked_append,
    Piece.inked_replicate_space, inked, pieces, Piece.inked_append, hcurrent]

/-- A break loses no ink and brings none. -/
theorem inked_breakLine (p : Page) : p.breakLine.inked = p.inked := by
  have hline : p.breakLine.pieces =
      List.replicate p.padding Piece.space ++
        (p.currentLine.dropWhile Piece.isBlank ++ p.finished.flatten) := rfl
  rw [inked, hline, Piece.inked_append, Piece.inked_append, Piece.inked_dropWhile,
    Piece.inked_replicate_space, List.append_nil, inked, pieces, Piece.inked_append]

/-- Putting a text brings its ink, behind that of all that stands on the page. -/
theorem inked_put (p : Page) (t : Text) :
    (p.put t).inked = p.inked ++ Piece.inked [⟨t, p.style.faceOf t⟩] := by
  rw [inked, pieces, currentLine_put, finished_put, List.cons_append, Piece.inked_cons]
  rfl

/-- Opening a word loses no ink and brings none. The word begins with nothing in it. -/
theorem inked_openWord (p : Page) : p.openWord.inked = p.inked := by
  cases hw : p.word with
  | none =>
    rw [inked, pieces, currentLine_openWord hw, openWord_of_none hw]
    rfl
  | some w =>
    unfold openWord
    rw [hw]
    unfold inked pieces currentLine
    simp only [hw]

/-- Completing a word loses no ink and brings none, even if the word is carried over. What a word
that is carried over loses are blanks, and what it is padded with are blanks. -/
theorem inked_completeWord (p : Page) : p.completeWord.inked = p.inked := by
  rcases completeWord_eq p with heq | ⟨w, hw, heq | heq⟩
  · rw [heq]
  · rw [heq, inked, pieces, inked, pieces, currentLine_of_word hw]
    rfl
  · rw [heq, inked, pieces, inked, pieces, currentLine_of_word hw, currentLine_carryWord,
      finished_carryWord, List.flatten_cons]
    simp only [Piece.inked_append, Piece.inked_replicate_space, Piece.inked_dropWhile,
      List.nil_append, List.append_assoc]

/-- **No ink is lost, doubled or moved.** Whatever becomes of a page, the ink on it grows by the
texts that come onto it.

**Proof sketch.** By induction on what becomes of it. Breaks and carried words move pieces to other
lines but keep their order, and drop none but blank ones. -/
theorem Becomes.inks_eq (h : Becomes p ts q) (hp : p.Proper) : q.inks = p.inks ++ ts := by
  induction h with
  | sameLines h => rw [inks, h.pieces_eq, inks, List.append_nil]
  | startLine hblank =>
    rw [inks_eq_map, inked_startLine hp hblank, List.append_nil]
    rfl
  | breakLine p =>
    rw [inks_eq_map, inked_breakLine, List.append_nil]
    rfl
  | @put p t _ _ =>
    rw [inks_eq_map, inked_put, List.map_append, ← Piece.inks_eq_map, Piece.inks_singleton]
    rfl
  | @openWord p hw =>
    rw [inks_eq_map, inked_openWord, List.append_nil]
    rfl
  | @completeWord p w hw =>
    rw [inks_eq_map, inked_completeWord, List.append_nil]
    rfl
  | trans hpq _ ih ih' => rw [ih' (hpq.proper hp), ih hp, List.append_assoc]

namespace Proper

/-- What is shown of a page shows the ink on it. -/
theorem shows_shown (h : p.Proper) : Text.Shows p.inks p.shown := by
  rw [inks, pieces, Piece.inks_append]
  exact (Piece.shows_lines fun x hx => h.isPure x (List.mem_append_right _ hx)).append
    (Piece.shows_showLine h.accounted.pure)

/-- The texts of ink on a proper page are ink and are not empty. -/
theorem isInk_of_mem_inks (h : p.Proper) {t : Text} (ht : t ∈ p.inks) : t.isInk = true ∧ t ≠ [] :=
  Piece.isInk_of_mem_inks h.isPure ht

/-- The text of a page shows the ink on it. -/
theorem shows_text (h : p.Proper) : Text.Shows p.inks p.text :=
  h.shows_shown.stripRight fun _ ht => h.isInk_of_mem_inks ht

end Proper

end Page

end Manpage

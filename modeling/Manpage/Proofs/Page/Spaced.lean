import Manpage.Proofs.Page.Tidy
import Manpage.Proofs.Text.Spaced

/-!
# Evenly spaced pages

Where lines are filled, a space comes onto a line only behind ink, and a line is ended only if it
holds ink. So blanks separate words, and empty lines separate others. A word that is carried over
may take a space with it, but then that space is at the start of its line.

## Main definitions

* `Manpage.Piece.IsSpaced` — pieces of a line, with single spaces between those of ink.
* `Manpage.Page.Spaced` — a page of such lines, with empty ones as a set allows.

## Main results

* `Manpage.Page.Spaced.append`, `Manpage.Page.Spaced.appendSpace`,
  `Manpage.Page.Spaced.lineBreak`, `Manpage.Page.Spaced.blankLine`,
  `Manpage.Page.Spaced.breakLines`, `Manpage.Page.Spaced.openWord`,
  `Manpage.Page.Spaced.closeWord` — the operations on a page keep it so.
* `Manpage.Page.Spaced.isEvenlySpaced`, `Manpage.Page.Spaced.separated` — its lines.
-/

namespace Manpage

/-! ## Lines -/

namespace Piece

variable {x : Piece} {xs ys zs : List Piece}

/-- Pieces of a line, the latest first, with nothing but blanks at the start and single spaces
behind pieces of ink. -/
inductive IsSpaced : List Piece → Prop
  | blank {xs : List Piece} (h : ∀ x ∈ xs, x.isBlank = true) : IsSpaced xs
  | ink {x : Piece} {xs : List Piece} (hx : x.isBlank = false) (h : IsSpaced xs) :
      IsSpaced (x :: xs)
  | space {x : Piece} {xs : List Piece} (hx : x.isBlank = false) (h : IsSpaced (x :: xs)) :
      IsSpaced (space :: x :: xs)

namespace IsSpaced

/-- A line of spaces is spaced. -/
theorem replicate_space (n : Nat) : IsSpaced (List.replicate n Piece.space) := by
  refine .blank fun x hx => ?_
  rw [List.eq_of_mem_replicate hx]
  rfl

/-- A line that is spaced stays so without its latest piece. -/
theorem tail (h : IsSpaced (x :: xs)) : IsSpaced xs := by
  cases h with
  | blank h => exact .blank fun y hy => h y (List.mem_cons_of_mem x hy)
  | ink _ h => exact h
  | space _ h => exact h

/-- What stands on a line before some of its last pieces. -/
theorem of_suffix (h : IsSpaced xs) (hys : ys <:+ xs) : IsSpaced ys := by
  obtain ⟨front, rfl⟩ := hys
  induction front with
  | nil => exact h
  | cons x front ih => exact ih h.tail

/-- The last pieces of a line may be put behind blanks. By induction on the pieces as they are
spaced: what is cut off is replaced by blanks, wherever the cut is, between ink and ink or before
and behind a space. -/
theorem carry (h : IsSpaced (ys ++ xs)) (hzs : ∀ z ∈ zs, z.isBlank = true) :
    IsSpaced (ys ++ zs) := by
  generalize heq : ys ++ xs = line at h
  induction h generalizing ys with
  | blank h =>
    refine .blank fun y hy => ?_
    rcases List.mem_append.mp hy with hy | hy
    · exact h y (heq ▸ List.mem_append_left _ hy)
    · exact hzs y hy
  | ink hx _ ih =>
    cases ys with
    | nil => exact .blank hzs
    | cons y ys =>
      obtain ⟨rfl, hrest⟩ := List.cons.inj heq
      exact .ink hx (ih hrest)
  | space hx _ ih =>
    match ys with
    | [] => exact .blank hzs
    | [y] =>
      obtain ⟨rfl, -⟩ := List.cons.inj heq
      exact .blank (List.forall_mem_cons.mpr ⟨rfl, hzs⟩)
    | y :: z :: ys =>
      obtain ⟨rfl, hrest⟩ := List.cons.inj heq
      obtain ⟨rfl, -⟩ := List.cons.inj hrest
      exact .space hx (ih hrest)

/-- Such pieces make an evenly spaced line, whatever their ink is shown as.

**Proof sketch.** By induction on the pieces. Blanks at the beginning are free, ink may follow
anywhere, and a space stands behind ink, which is the piece before it. -/
theorem isEvenlySpaced {g : Piece → Text} (hblank : ∀ x, x.IsPure → x.isBlank = true → g x = x.text)
    (hink : ∀ x, x.IsPure → x.isBlank = false → (g x).isInk = true ∧ g x ≠ [])
    (hpure : ∀ x ∈ xs, x.IsPure) (h : IsSpaced xs) :
    Text.IsEvenlySpaced (xs.reverse.flatMap g) := by
  have hcons : ∀ (x : Piece) (xs : List Piece),
      (x :: xs).reverse.flatMap g = xs.reverse.flatMap g ++ g x := by simp
  induction h with
  | @blank xs h =>
    refine .of_isBlank (Text.isBlank_iff.mpr fun c hc => ?_)
    obtain ⟨x, hx, hc⟩ := List.mem_flatMap.mp hc
    rw [List.mem_reverse] at hx
    rw [hblank x (hpure x hx) (h x hx)] at hc
    exact Text.isBlank_iff.mp (h x hx) c hc
  | @ink x xs hx _ ih =>
    obtain ⟨hxpure, hxs⟩ := List.forall_mem_cons.mp hpure
    rw [hcons]
    exact (ih hxs).append_ink (hink x hxpure hx).1
  | @space x xs hx _ ih =>
    obtain ⟨-, hxs⟩ := List.forall_mem_cons.mp hpure
    obtain ⟨hxink, hne⟩ := hink x (hxs x List.mem_cons_self) hx
    have hline := ih hxs
    rw [hcons] at hline
    rw [hcons, hcons, hblank _ isPure_space rfl]
    exact hline.append_space hxink hne

end IsSpaced

/-- Pure pieces of which not all are blank do not make a blank line. -/
theorem dropWhile_ne_nil (hpure : ∀ x ∈ xs, x.IsPure) (h : (lineText xs).isBlank = false) :
    xs.dropWhile isBlank ≠ [] := by
  intro hnil
  have hstrip := lineText_dropWhile hpure
  rw [hnil, lineText_nil] at hstrip
  exact Bool.noConfusion (h.symm.trans (Text.stripRight_eq_nil_iff.mp hstrip.symm))

/-- Something is shown of a pure piece. -/
theorem shown_ne_nil (hx : x.IsPure) : x.shown ≠ [] := by
  unfold shown showIn
  cases x.face with
  | none => exact hx.ne_nil
  | some f => simp [Face.reset]

/-- What is shown of a pure piece that is not blank is ink, its control sequences included. The
sequences consist of characters that are no blanks. -/
theorem isInk_shown (hx : x.IsPure) (hb : x.isBlank = false) : x.shown.isInk = true := by
  have hink : x.text.isInk = true :=
    hx.sort.resolve_left fun hblank => Bool.noConfusion (hb.symm.trans hblank)
  unfold shown showIn
  cases x.face with
  | none => exact hink
  | some f =>
    have hstart : Text.isInk f.start = true := by cases f <;> decide
    have hreset : Text.isInk Face.reset = true := by decide
    rw [Text.isInk_append, Text.isInk_append, hstart, hink, hreset]
    rfl

end Piece

/-! ## Pages -/

namespace Page

variable {S : Nat → Prop} {p q : Page} {t : Text} {w : OpenWord}

/-- A page that fills its lines, with even spaces on them and empty ones as a set allows. A word
that was opened behind other text has ink before it. -/
structure Spaced (S : Nat → Prop) (p : Page) : Prop where
  noFill_eq : p.noFill = false
  accounted : p.Accounted
  line : Piece.IsSpaced p.currentLine
  finished : ∀ line ∈ p.finished, Piece.IsSpaced line
  separated : Separated S p.finished
  before : ∀ w, p.word = some w → w.afterText = true → (Piece.lineText p.line).isBlank = false

namespace Spaced

/-- An empty page is spaced, whatever numbers of empty lines may stand in a row. -/
theorem ofWidth (S : Nat → Prop) (width : Int) : (ofWidth width).Spaced S :=
  ⟨rfl, accounted_ofWidth width, .blank (by simp [Page.ofWidth, currentLine]),
    by simp [Page.ofWidth], .nil, by simp [Page.ofWidth]⟩

/-- A page with the lines of one that is spaced is so too, as long as its lines are filled. -/
theorem sameLines (hpq : p.SameLines q) (hfill : q.noFill = false) (h : p.Spaced S) :
    q.Spaced S := by
  refine ⟨hfill, hpq.accounted h.accounted, ?_, ?_, ?_, ?_⟩
  · rw [hpq.currentLine_eq]
    exact h.line
  · rw [hpq.finished_eq]
    exact h.finished
  · rw [hpq.finished_eq]
    exact h.separated
  · rw [hpq.word_eq, hpq.line_eq]
    exact h.before

/-! ### Line ends -/

/-- A fresh line leaves a page spaced. -/
theorem startLine (h : p.Spaced S) : p.startLine.Spaced S :=
  ⟨h.noFill_eq, accounted_startLine p, .replicate_space p.padding, h.finished, h.separated,
    by simp⟩

/-- A line with ink on it does not become empty when the blanks at its end are dropped. -/
theorem dropWhile_currentLine_ne_nil (h : p.Spaced S) (hb : p.isLineBlank = false) :
    p.currentLine.dropWhile Piece.isBlank ≠ [] :=
  Piece.dropWhile_ne_nil h.accounted.pure (h.accounted.isLineBlank_eq ▸ hb)

/-- A break finishes a line that is spaced. -/
theorem finished_breakLine (h : p.Spaced S) :
    ∀ line ∈ p.breakLine.finished, Piece.IsSpaced line :=
  List.forall_mem_cons.mpr ⟨h.line.of_suffix (List.dropWhile_suffix _), h.finished⟩

/-- The end of a line that holds ink. -/
theorem breakLine (h : p.Spaced S) (hb : p.isLineBlank = false) : p.breakLine.Spaced S :=
  ⟨h.noFill_eq, accounted_breakLine p, .replicate_space p.padding, h.finished_breakLine,
    h.separated.cons_line (h.dropWhile_currentLine_ne_nil hb), by simp⟩

/-- The end of a line leaves a page spaced, since a blank line is not ended. -/
theorem lineBreak (h : p.Spaced S) : p.lineBreak.Spaced S := by
  unfold Page.lineBreak
  split
  · exact h.startLine
  · rename_i hb
    exact h.breakLine (Bool.not_eq_true _ ▸ hb)

/-- A line with nothing on it but its padding is ended as an empty one. By induction on the number
of breaks, each of which finds the same line again. -/
theorem breakLines_of_startLine (hp : p.startLine = p) (n : Nat) :
    p.breakLines n = { p with finished := List.replicate n [] ++ p.finished } := by
  induction n generalizing p with
  | zero => rfl
  | succ n ih =>
    have hempty : p.currentLine.dropWhile Piece.isBlank = [] := by
      rw [← hp, currentLine_startLine, List.dropWhile_replicate]
      rfl
    have hbreak : p.breakLine = { p with finished := [] :: p.finished } := by
      calc p.breakLine
        _ = { p.startLine with finished := p.currentLine.dropWhile Piece.isBlank :: p.finished } :=
          rfl
        _ = { p with finished := [] :: p.finished } := by rw [hempty, hp]
    rw [breakLines, ih rfl, hbreak, List.replicate_succ', List.append_assoc]
    rfl

/-- The end of a line that holds ink, with empty lines behind it. The first break ends the line of
ink, and the others end a line of padding each. -/
theorem breakLines {n : Nat} (h : p.Spaced S) (hb : p.isLineBlank = false) (hn : n = 1 ∨ S n) :
    (p.breakLines (n + 1)).Spaced S := by
  have hline := h.breakLine hb
  have heq : p.breakLines (n + 1) =
      { p.breakLine with finished := List.replicate n [] ++ p.breakLine.finished } :=
    breakLines_of_startLine rfl n
  rw [heq]
  refine ⟨hline.noFill_eq, ⟨hline.accounted.extent_eq, hline.accounted.pure⟩, hline.line, ?_, ?_,
    by simp⟩
  · refine List.forall_mem_append.mpr ⟨fun line hmem => ?_, hline.finished⟩
    rw [List.eq_of_mem_replicate hmem]
    exact .blank (List.forall_mem_nil _)
  · exact .cons n (Or.inr hn) (h.dropWhile_currentLine_ne_nil hb) h.separated

/-- An empty line leaves a page spaced: it stands behind a line with ink, or is not left at all. -/
theorem blankLine (h : p.Spaced S) : p.blankLine.Spaced S := by
  unfold Page.blankLine
  split
  · exact h.startLine
  · rename_i hb
    exact h.breakLines (n := 1) (Bool.not_eq_true _ ▸ hb) (Or.inl rfl)

/-! ### Texts -/

/-- A piece that may stand behind the others comes onto the line. What has been noted about an open
word stays true, as the line before the word is the same. -/
theorem put (h : p.Spaced S) (hne : t ≠ []) (hsort : t.isBlank = true ∨ t.isInk = true)
    (hline : Piece.IsSpaced (⟨t, p.style.faceOf t⟩ :: p.currentLine)) : (p.put t).Spaced S := by
  refine ⟨?_, h.accounted.put hne hsort, ?_, ?_, ?_, ?_⟩
  · unfold Page.put
    cases p.word <;> exact h.noFill_eq
  · rw [currentLine_put]
    exact hline
  · rw [finished_put]
    exact h.finished
  · rw [finished_put]
    exact h.separated
  · intro w hw hafter
    cases hword : p.word with
    | none =>
      rw [word_put_of_none hword] at hw
      exact absurd hw (by simp)
    | some v =>
      rw [word_put_of_some hword, Option.some.injEq] at hw
      subst hw
      rw [line_put_of_some hword]
      exact h.before v hword hafter

/-- Ink comes onto the line, or onto the next one. Ink may stand behind anything, on this line or
behind the padding of the next one. -/
theorem append (h : p.Spaced S) (hink : t.isInk = true) (hne : t ≠ []) :
    (p.append t).Spaced S := by
  have hput : ∀ {q : Page}, q.Spaced S → (q.put t).Spaced S := fun hq =>
    hq.put hne (Or.inr hink) (.ink (Text.isBlank_eq_false_of_isInk hink hne) hq.line)
  have hfeed : t ≠ ['\n'] := Text.ne_newline_of_isInk hink
  have hspace : t ≠ [' '] := by
    rintro rfl
    exact absurd hink (by decide)
  unfold Page.append
  rw [if_neg hne, if_neg hfeed, if_neg hspace]
  split
  · exact hput h
  · split
    · exact hput h
    · rename_i hb
      exact hput (h.breakLine (Bool.not_eq_true _ ▸ hb))

/-- A space comes onto a line behind ink, or ends the line.

**Proof sketch.** A space is dropped on a blank line and behind a blank. Otherwise the last piece is
of ink, and the space may stand behind it; where it does not fit the line ends, and it is not blank.
-/
theorem appendSpace (h : p.Spaced S) : p.appendSpace.Spaced S := by
  unfold Page.appendSpace
  split
  · exact h
  · rename_i hbehind
    rw [Bool.or_eq_true, not_or, Bool.not_eq_true, Bool.not_eq_true] at hbehind
    obtain ⟨hb, hhead⟩ := hbehind
    -- the line is not blank, so it has a last piece, which is of ink
    obtain ⟨x, xs, hline⟩ : ∃ x xs, p.currentLine = x :: xs := by
      refine List.exists_cons_of_ne_nil fun hnil => h.dropWhile_currentLine_ne_nil hb ?_
      rw [hnil]
      rfl
    have hx : x.isBlank = false := by simpa [hline] using hhead
    have hput : (p.put [' ']).Spaced S := by
      refine h.put (by decide) (Or.inl (by decide)) ?_
      rw [hline]
      exact .space hx (hline ▸ h.line)
    unfold Page.append
    rw [if_neg (by decide), if_neg (by decide), if_pos rfl]
    split
    · exact hput
    · split
      · exact h
      · exact h.breakLine hb

/-! ### Words -/

/-- Opening a word leaves a page spaced, and notes whether ink stands before the word. The note is
right, since no word is open and the line is all that stands there. Within another word only a block
is opened. -/
theorem openWord (h : p.Spaced S) : p.openWord.Spaced S := by
  cases hw : p.word with
  | some w =>
    refine h.sameLines ?_ ?_
    · simp only [Page.openWord, hw]
      exact ⟨rfl, rfl, rfl, rfl, hw.symm ▸ rfl⟩
    · simp only [Page.openWord, hw]
      exact h.noFill_eq
  | none =>
    have haccounted := h.accounted.openWord hw
    rw [openWord_of_none hw] at haccounted ⊢
    have hcurrent : p.currentLine = p.line := by rw [currentLine, hw]
    refine ⟨h.noFill_eq, haccounted, hcurrent ▸ h.line, h.finished, h.separated, ?_⟩
    intro w hword hafter
    obtain rfl := Option.some.inj hword
    have hb : p.isLineBlank = false := by simpa using hafter
    rw [h.accounted.isLineBlank_eq, lineText, hcurrent] at hb
    exact hb

/-- A word goes to the next line without the blanks before it. The line before it holds ink, since
the word stands behind text, and so it stays apart from the lines above it. -/
theorem carryWord (h : p.Spaced S) (hw : p.word = some w) (hafter : w.afterText = true) :
    (p.carryWord w).Spaced S := by
  have hcurrent := currentLine_of_word hw
  have hbefore : Piece.IsSpaced p.line := h.line.of_suffix (hcurrent ▸ List.suffix_append _ _)
  have hpure : ∀ x ∈ p.line, x.IsPure := fun x hx =>
    h.accounted.pure x (hcurrent ▸ List.mem_append_right _ hx)
  refine ⟨h.noFill_eq, h.accounted.carryWord hw, ?_, ?_, ?_, by simp [Page.carryWord]⟩
  · rw [currentLine_carryWord]
    refine (hcurrent ▸ h.line).carry fun z hz => ?_
    rw [List.eq_of_mem_replicate hz]
    rfl
  · rw [finished_carryWord]
    exact List.forall_mem_cons.mpr ⟨hbefore.of_suffix (List.dropWhile_suffix _), h.finished⟩
  · rw [finished_carryWord]
    exact h.separated.cons_line (Piece.dropWhile_ne_nil hpure (h.before w hw hafter))

/-- Settling a word leaves a page spaced. -/
theorem settleWord (h : p.Spaced S) (hw : p.word = some w) : (p.settleWord w).Spaced S := by
  refine ⟨h.noFill_eq, h.accounted.settleWord hw, ?_, h.finished, h.separated,
    by simp [Page.settleWord]⟩
  rw [currentLine_settleWord, ← currentLine_of_word hw]
  exact h.line

/-- Completing a word leaves a page spaced. A word is carried over only behind ink, so that no blank
line is ended. -/
theorem completeWord (h : p.Spaced S) : p.completeWord.Spaced S := by
  unfold Page.completeWord
  cases hw : p.word with
  | none => exact h
  | some w =>
    simp only
    split
    · rename_i hcarry
      rw [Bool.and_eq_true, Bool.and_eq_true] at hcarry
      exact h.carryWord hw hcarry.1.2
    · exact h.settleWord hw

/-- Closing the block of a word leaves a page spaced. Blocks make no difference to lines, and
completing a word leaves a page spaced. -/
theorem closeWord (h : p.Spaced S) : p.closeWord.Spaced S := by
  unfold Page.closeWord
  split
  · exact h
  · rename_i owner outer _
    have houter : Spaced S { p with blocks := outer } :=
      sameLines (p := p) ⟨rfl, rfl, rfl, rfl, rfl⟩ h.noFill_eq h
    cases owner with
    | false => exact houter
    | true => exact houter.completeWord

/-! ### The lines of the text -/

variable {source : Text}

/-- Every line of the page is evenly spaced. -/
theorem isSpaced_of_mem_lines (h : p.Spaced S) {line : List Piece} (hline : line ∈ p.lines) :
    Piece.IsSpaced line := by
  rw [lines, List.mem_reverse, List.mem_cons] at hline
  rcases hline with rfl | hline
  · exact h.line.of_suffix (List.dropWhile_suffix _)
  · exact h.finished line hline

/-- Every line of the text is evenly spaced, with its control sequences and without them.

**Proof sketch.** A line of the text is empty or one of the page. The pieces of the latter are
spaced, as they are shown and as their characters alone are. -/
theorem isEvenlySpaced (h : p.Spaced S) (htidy : p.Tidy source) (hsource : '\x1b' ∉ source)
    {l : Text} (hl : l ∈ p.text.splitOn '\n') :
    l.IsEvenlySpaced ∧ (Text.eraseControls l).IsEvenlySpaced := by
  rcases htidy.exists_of_mem_splitOn hl with rfl | ⟨line, hline, rfl⟩
  · rw [Text.eraseControls_nil]
    exact ⟨.of_isBlank rfl, .of_isBlank rfl⟩
  · have hpure : ∀ x ∈ line, x.IsPure := fun x hx =>
      (htidy.isOf_of_mem_lines hline x hx).isPure
    have hspaced := h.isSpaced_of_mem_lines hline
    rw [htidy.eraseControls_showLine hsource hline]
    have hshown : ∀ x : Piece, x.IsPure → x.isBlank = false →
        x.shown.isInk = true ∧ x.shown ≠ [] := fun x hx hb =>
      ⟨Piece.isInk_shown hx hb, Piece.shown_ne_nil hx⟩
    refine ⟨hspaced.isEvenlySpaced ?_ hshown hpure,
      hspaced.isEvenlySpaced (fun _ _ _ => rfl) ?_ hpure⟩
    · intro x hx hb
      rw [Piece.shown, hx.face_eq hb]
      rfl
    · intro x hx hb
      exact ⟨hx.sort.resolve_left fun hblank => Bool.noConfusion (hb.symm.trans hblank), hx.ne_nil⟩

/-- The lines of the text, the last one first, are separated by so many empty ones as are allowed.

**Proof sketch.** The lines of the text are those of the page, without the empty ones at its end. A
line with pieces is not shown as an empty one, so that the finished lines stay separated, and the
current one is put before them unless it is empty. -/
theorem separated_splitOn (h : p.Spaced S) (htidy : p.Tidy source) (hne : p.text ≠ []) :
    Separated S (p.text.splitOn '\n').reverse := by
  have hshown : ∀ line ∈ p.lines, line ≠ [] → Piece.showLine line ≠ [] := by
    intro line hline hne hnil
    obtain ⟨x, xs, rfl⟩ := List.exists_cons_of_ne_nil hne
    have hx := (htidy.isOf_of_mem_lines hline x List.mem_cons_self).isPure
    rw [Piece.showLine_cons, List.append_eq_nil_iff] at hnil
    exact Piece.shown_ne_nil hx hnil.2
  have hlines : Separated S ((p.lines.map Piece.showLine).reverse.dropWhile List.isEmpty) := by
    rw [← List.map_reverse]
    have hfinished : Separated S (p.finished.map Piece.showLine) :=
      h.separated.map rfl fun line hline => hshown line (by simp [lines, hline])
    rw [lines, List.reverse_reverse, List.map_cons]
    by_cases hcurrent : p.currentLine.dropWhile Piece.isBlank = []
    · rw [hcurrent, Piece.showLine_nil, List.dropWhile_cons_of_pos rfl]
      exact hfinished.dropWhile_isEmpty
    · exact (hfinished.cons_line (hshown _ (by simp [lines]) hcurrent)).dropWhile_isEmpty
  rw [htidy.splitOn_text hne, List.rdropWhile, List.reverse_reverse]
  exact hlines

/-- The text does not begin with an empty line. If it did, an empty line would be the first of the
lines that are separated, and none of these begin with one. -/
theorem head?_text_ne (h : p.Spaced S) (htidy : p.Tidy source) : p.text.head? ≠ some '\n' := by
  intro hhead
  obtain ⟨rest, htext⟩ : ∃ rest, p.text = '\n' :: rest := by
    cases hp : p.text with
    | nil => simp [hp] at hhead
    | cons c rest =>
      rw [hp, List.head?_cons, Option.some.injEq] at hhead
      exact ⟨rest, by rw [hhead]⟩
  have hlast := (h.separated_splitOn htidy (by simp [htext])).getLast?_ne
  rw [List.getLast?_reverse, htext, List.splitOn_eq_splitOnP,
    List.splitOnP_cons_eq_if_modifyHead, if_pos (by decide)] at hlast
  exact hlast rfl

/-- Empty lines in a row are as many as are allowed. The lines are read backwards, as they are kept
on the page; an empty text is a single empty line. -/
theorem eq_one_or_of_run (h : p.Spaced S) (htidy : p.Tidy source) {front back : List Text}
    {k : Nat} (heq : p.text.splitOn '\n' = front ++ (List.replicate k [] ++ back)) (hk : 0 < k)
    (hfront : front.getLast? ≠ some []) (hback : back.head? ≠ some []) : k = 1 ∨ S k := by
  by_cases hne : p.text = []
  · -- an empty text is one empty line
    have hlength := congrArg List.length heq
    rw [hne] at hlength
    simp only [List.splitOn_nil, List.length_singleton, List.length_append,
      List.length_replicate] at hlength
    exact Or.inl (by omega)
  · have hreverse : (p.text.splitOn '\n').reverse =
        back.reverse ++ (List.replicate k [] ++ front.reverse) := by
      rw [heq]
      simp
    refine (h.separated_splitOn htidy hne).mem_of_run hreverse hk ?_ ?_
    · rwa [List.getLast?_reverse]
    · rwa [List.head?_reverse]

end Spaced

end Page

end Manpage

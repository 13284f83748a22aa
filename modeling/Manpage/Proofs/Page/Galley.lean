import Manpage.Proofs.Page.Operation
import Manpage.Proofs.Page.Plain
import Mathlib.Data.List.DropRight
import Mathlib.Logic.Function.Iterate

/-!
# Galleys

A page keeps the finished lines, the current line and an open word apart. A galley is what a page
looks like to whoever prints it: one row of parts, each a text as it is shown, with the line feeds
among them. Which parts are the current line, and which of them an open word, is a matter of two
places in that row and of an extent beside it. Parts are put at the end of the row, are dropped from
its end, and are cut off from a place on, and every operation has to keep places and extent right.

Operations on a galley are written out here in these terms. They lead from the galley of a page to
the galley of the page that the same operations lead to, so nothing is lost by keeping lines apart.

## Main definitions

* `Manpage.Galley` — a row of parts, with the places where the current line and the word begin.
* `Manpage.Galley.perform`, `Manpage.Galley.performAll` — operations carried out on a galley.
* `Manpage.Page.galley` — the galley of a page.

## Main results

* `Manpage.Galley.startLine_eq_iterate_append` — the spaces that a line begins with are appended
  like any others.
* `Manpage.Page.galley_perform` — one operation, on a page and on its galley.
* `Manpage.Page.galley_performAll` — any operations, from the empty page and the empty galley on.
-/

namespace Manpage

/-! ## Settings -/

/-- The operations that change settings, all others apart. One that fails leaves them as they
are. -/
def Page.Settings.perform (st : Page.Settings) : Page.Operation → Page.Settings
  | .setStyle font value => { st with style := st.style.set font value }
  | .plainStyle => { st with style := .plain }
  | .setNoFill value => { st with noFill := value }
  | .setIndent amount => { st with indent := amount }
  | .storeIndent => { st with storedIndent := some st.indent }
  | .forgetIndent => { st with storedIndent := none }
  | .pushMargin amount => { st with margins := amount :: st.margins }
  | .popMargin => { st with margins := st.margins.tail }
  | .clearMargins => { st with margins := [] }
  | .sectionMargin => { st with margins := [Page.defaultMargin] }
  | _ => st

/-! ## Galleys -/

/-- A word that is open: its texts in order, each as it was appended and as it is shown, the place
of the first of them, and whether other text stands before it on its line. -/
structure Galley.Word where
  texts : List (Text × Text)
  start : Nat
  afterText : Bool

/-- A row of parts in the making. -/
structure Galley where
  width : Nat
  settings : Page.Settings
  /-- the texts as they are shown and the line feeds, in order -/
  parts : List Text
  /-- the place where the current line begins -/
  lineStart : Nat
  /-- the columns taken up by the current line -/
  extent : Extent
  word : Option Galley.Word
  /-- the blocks that keep a word together, marked where they own the word that is open -/
  blocks : List Bool

namespace Galley

/-- The empty galley for lines of a given width, which is one column at least. -/
def ofWidth (width : Int) : Galley where
  width := (max 1 width).toNat
  settings := ⟨.plain, false, 0, none, []⟩
  parts := []
  lineStart := 0
  extent := .empty
  word := none
  blocks := []

/-- The number of columns taken up on the current line. -/
def lineLength (g : Galley) : Nat :=
  g.extent.length

/-- Nothing but blanks stands on the current line. -/
def isLineBlank (g : Galley) : Bool :=
  g.extent.isBlank

/-- The left margin: the amounts of all open scopes together. -/
def margin (g : Galley) : Int :=
  g.settings.margins.foldr (· + ·) 0

/-- A part that is not empty and holds nothing but blanks. -/
def isBlankPart (t : Text) : Bool :=
  !t.isEmpty && t.isBlank

/-! ### Operations -/

/-- Puts a text at the end of the row, and into the word that is open. -/
def put (g : Galley) (t : Text) : Galley :=
  let shown := g.settings.style.stylize t
  { g with
    parts := g.parts ++ [shown]
    extent := g.extent.add t
    word := g.word.map fun w => { w with texts := w.texts ++ [(t, shown)] } }

/-- Appends one space to a blank line, unless it would overflow. -/
def pad (g : Galley) : Galley :=
  if g.width < g.lineLength + 1 then g else g.put [' ']

/-- Starts a line at the end of the row, space by space. -/
def startLine (g : Galley) : Galley :=
  pad^[g.settings.padding g.width]
    { g with lineStart := g.parts.length, extent := .empty, word := none }

/-- The row without the blank parts at the end of the current line. -/
def trimmed (g : Galley) : List Text :=
  g.parts.take g.lineStart ++ (g.parts.drop g.lineStart).rdropWhile isBlankPart

/-- Ends the current line. -/
def breakLine (g : Galley) : Galley :=
  startLine { g with parts := g.trimmed ++ [['\n']] }

/-- Cuts off the current line and starts it again. -/
def repad (g : Galley) : Galley :=
  startLine { g with parts := g.parts.take g.lineStart }

/-- Ends the current line; a blank line is started again instead. -/
def lineBreak (g : Galley) : Galley :=
  if g.isLineBlank then g.repad else g.breakLine

/-- Ends the current line and leaves an empty one; a blank line is started again instead. -/
def blankLine (g : Galley) : Galley :=
  if g.isLineBlank then g.repad else g.breakLine.breakLine

/-- Appends a text. -/
def append (g : Galley) (t : Text) : Galley :=
  if t = [] then g
  else if t = ['\n'] then g.breakLine
  else if g.word.isSome then g.put t
  else if g.width < g.lineLength + t.length then
    if t = [' '] then if g.isLineBlank then g else g.breakLine
    else if g.isLineBlank then g.put t
    else g.breakLine.put t
  else g.put t

/-- Appends a space between words: none on a blank line, and none after a blank part. -/
def appendSpace (g : Galley) : Galley :=
  if g.isLineBlank then g
  else if g.parts.getLast?.any isBlankPart then g
  else g.append [' ']

/-- Opens a block that keeps what is appended in it together. -/
def openWord (g : Galley) : Galley :=
  match g.word with
  | some _ => { g with blocks := false :: g.blocks }
  | none =>
    { g with
      blocks := true :: g.blocks
      word := some ⟨[], g.parts.length, !g.isLineBlank⟩ }

/-- Cuts off a complete word, ends the line before it, and puts the word behind that. -/
def carryWord (g : Galley) (w : Word) : Galley :=
  let next := breakLine { g with parts := g.parts.take w.start, word := none }
  { next with
    parts := next.parts ++ w.texts.map Prod.snd
    extent := w.texts.foldl (fun e x => e.add x.1) next.extent }

/-- Completes the word that is open. -/
def completeWord (g : Galley) : Galley :=
  match g.word with
  | none => g
  | some w =>
    if !w.texts.isEmpty && w.afterText && g.width < g.lineLength then g.carryWord w
    else { g with word := none }

/-- Closes the innermost block; a block that owns the word completes it. -/
def closeWord (g : Galley) : Galley :=
  match g.blocks with
  | [] => g
  | owner :: outer =>
    let g := { g with blocks := outer }
    if owner then g.completeWord else g

/-- An operation carried out. One that fails leaves the galley as it is. -/
def perform (g : Galley) : Page.Operation → Galley
  | .append t => g.append t
  | .appendSpace => g.appendSpace
  | .breakLine => g.breakLine
  | .lineBreak => g.lineBreak
  | .blankLine => g.blankLine
  | .openWord => g.openWord
  | .closeWord => g.closeWord
  | op => { g with settings := g.settings.perform op }

/-- Operations carried out one after another. -/
def performAll (g : Galley) (ops : List Page.Operation) : Galley :=
  ops.foldl perform g

variable {g : Galley} {n : Nat}

/-! ### Padding -/

/-- Where no word is open, a space is put at the end of the row and takes up a column of blanks. -/
theorem put_space (g : Galley) (hw : g.word = none) :
    g.put [' '] =
      { g with parts := g.parts ++ [[' ']], extent := ⟨g.extent.blank + 1, g.extent.ink⟩ } := by
  rw [put, hw]
  rfl

/-- A space on a blank line is padding. -/
theorem append_space_of_isLineBlank (hw : g.word = none) (hblank : g.isLineBlank = true) :
    g.append [' '] = g.pad := by
  simp [append, pad, hw, hblank]

/-- Padding leaves a blank line blank. -/
theorem pad_blank (hw : g.word = none) (hblank : g.isLineBlank = true) :
    g.pad.word = none ∧ g.pad.isLineBlank = true := by
  unfold pad
  split
  · exact ⟨hw, hblank⟩
  · rw [put_space g hw]
    exact ⟨hw, hblank⟩

/-- On a blank line, appending a space is padding: where it does not fit it is dropped, and the line
is not ended. So padding can be written either way. -/
theorem iterate_append_space (hw : g.word = none) (hblank : g.isLineBlank = true) (n : Nat) :
    (fun h => h.append [' '])^[n] g = pad^[n] g := by
  induction n generalizing g with
  | zero => rfl
  | succ n ih =>
    obtain ⟨hw', hblank'⟩ := pad_blank hw hblank
    rw [Function.iterate_succ_apply, Function.iterate_succ_apply,
      append_space_of_isLineBlank hw hblank, ih hw' hblank']

/-- **The spaces that a line begins with** are appended like any others. -/
theorem startLine_eq_iterate_append (g : Galley) :
    g.startLine = (fun h => h.append [' '])^[g.settings.padding g.width]
      { g with lineStart := g.parts.length, extent := .empty, word := none } :=
  (iterate_append_space rfl rfl _).symm

/-- As much padding as the line has room for stands at the end of the row. By induction on the
number of spaces, each of which fits. -/
theorem iterate_pad (hw : g.word = none) (hn : g.lineLength + n ≤ g.width) :
    pad^[n] g =
      { g with
        parts := g.parts ++ List.replicate n [' ']
        extent := ⟨g.extent.blank + n, g.extent.ink⟩ } := by
  induction n with
  | zero => simp
  | succ n ih =>
    have hfits : ¬ g.width < g.extent.blank + n + g.extent.ink + 1 := by
      unfold lineLength Extent.length at hn
      omega
    rw [Function.iterate_succ_apply', ih (by omega), pad, lineLength, Extent.length, if_neg hfits,
      put_space _, List.replicate_succ']
    · simp [Nat.add_assoc]
    · exact hw

/-- A fresh line, with all of its padding. The padding is never wider than the page, so all of it
fits. -/
theorem startLine_eq (g : Galley) :
    g.startLine =
      { g with
        parts := g.parts ++ List.replicate (g.settings.padding g.width) [' ']
        lineStart := g.parts.length
        extent := ⟨g.settings.padding g.width, 0⟩
        word := none } := by
  have hpadding : g.settings.padding g.width ≤ g.width := by
    unfold Page.Settings.padding
    omega
  rw [startLine, iterate_pad rfl]
  · simp [Extent.empty]
  · simpa [lineLength, Extent.empty, Extent.length] using hpadding

end Galley

/-! ## The galley of a page -/

/-- The parts of a line, in order. -/
def Piece.parts (pieces : List Piece) : List Text :=
  pieces.reverse.map shown

namespace Page

/-- The parts of the finished lines with their line feeds, in order. -/
def finishedParts (p : Page) : List Text :=
  p.finished.reverse.flatMap fun line => Piece.parts line ++ [['\n']]

/-- The galley of a page. -/
def galley (p : Page) : Galley where
  width := p.width
  settings := p.settings
  parts := p.finishedParts ++ Piece.parts p.currentLine
  lineStart := p.finishedParts.length
  extent := p.extent
  word := p.word.map fun w =>
    ⟨w.pieces.reverse.map fun x => (x.text, x.shown),
      (p.finishedParts ++ Piece.parts p.line).length, w.afterText⟩
  blocks := p.blocks

end Page

namespace Piece

variable {x : Piece} {xs ys : List Piece}

/-- No pieces have no parts. -/
@[simp] theorem parts_nil : parts [] = [] := rfl

/-- The latest piece of a line is its last part, as it is shown. -/
@[simp] theorem parts_cons (x : Piece) (xs : List Piece) :
    parts (x :: xs) = parts xs ++ [x.shown] := by
  simp [parts]

/-- The parts of two rows of pieces, the latest first, are those of the earlier row and then those
of the later one. -/
@[simp] theorem parts_append (xs ys : List Piece) :
    parts (xs ++ ys) = parts ys ++ parts xs := by
  simp [parts]

/-- The parts of spaces are single spaces. -/
@[simp] theorem parts_replicate_space (n : Nat) :
    parts (List.replicate n space) = List.replicate n [' '] := by
  simp [parts, shown, space, showIn]

/-- The parts of a line make up what is shown of it. -/
theorem flatten_parts (xs : List Piece) : (parts xs).flatten = showLine xs := by
  rw [parts, showLine, List.flatMap_def]

/-- A part is blank just when its piece is. A part in a face begins with an escape character, which
is no blank, and a blank piece has no face. -/
theorem isBlankPart_shown (h : x.IsPure) : Galley.isBlankPart x.shown = x.isBlank := by
  obtain ⟨text, face⟩ := x
  have hne : text ≠ [] := h.ne_nil
  cases face with
  | none =>
    have hempty : text.isEmpty = false := by simpa using hne
    simp [Galley.isBlankPart, shown, showIn, isBlank, hempty]
  | some f =>
    have hb : ¬ Piece.isBlank ⟨text, some f⟩ = true := fun hb => by
      simpa using h.face_eq hb
    have hescape : isSpace '\x1b' = false := by decide
    rw [Bool.not_eq_true] at hb
    rw [hb]
    cases f <;> simp [Galley.isBlankPart, shown, showIn, Face.start, hescape]

/-- Dropping the blank parts at the end of a line drops its blank pieces. The parts stand in the
order of the text and the pieces in the opposite one. -/
theorem rdropWhile_parts (h : ∀ x ∈ xs, x.IsPure) :
    (parts xs).rdropWhile Galley.isBlankPart = parts (xs.dropWhile isBlank) := by
  induction xs with
  | nil => rfl
  | cons x xs ih =>
    obtain ⟨hx, hxs⟩ := List.forall_mem_cons.mp h
    have hpart := isBlankPart_shown hx
    rw [parts_cons, List.dropWhile_cons]
    split
    · rename_i hb
      rw [List.rdropWhile_concat_pos _ _ _ (hpart.trans hb), ih hxs]
    · rename_i hb
      rw [List.rdropWhile_concat_neg _ _ _ (by rwa [hpart]), parts_cons]

end Piece

/-- The extent of a word, piece by piece or text by text. -/
theorem Extent.foldl_add_texts (e : Extent) (xs : List Piece) :
    (xs.reverse.map fun x => (x.text, x.shown)).foldl (fun e y => e.add y.1) e =
      e.addPieces xs := by
  rw [List.foldl_map, List.foldl_reverse, Extent.addPieces]

namespace Page

variable {p : Page} {t : Text} {op : Operation} {ops : List Operation}

/-- The galley of a page has a blank line just if the page has one. -/
@[simp] theorem isLineBlank_galley (p : Page) : p.galley.isLineBlank = p.isLineBlank := rfl

/-- The galley of a page has a line as long as that of the page. -/
@[simp] theorem lineLength_galley (p : Page) : p.galley.lineLength = p.lineLength := rfl

/-- A galley shows what its page shows. -/
theorem flatten_parts_galley (p : Page) : p.galley.parts.flatten = p.shown := by
  have hfinished : p.finishedParts.flatten =
      p.finished.reverse.flatMap fun line => Piece.showLine line ++ ['\n'] := by
    rw [finishedParts, List.flatten_eq_flatMap, List.flatMap_assoc]
    refine List.flatMap_congr fun line _ => ?_
    rw [List.flatMap_id, List.flatten_append, Piece.flatten_parts]
    rfl
  rw [galley, List.flatten_append, hfinished, Piece.flatten_parts, shown]

/-! ### Line ends -/

/-- The parts of a fresh line are the spaces of its padding. -/
theorem parts_startLine (p : Page) :
    Piece.parts p.startLine.currentLine = List.replicate p.padding [' '] :=
  Piece.parts_replicate_space _

/-- Before the current line stand the finished lines. -/
theorem take_lineStart_galley (p : Page) :
    p.galley.parts.take p.galley.lineStart = p.finishedParts :=
  List.take_left

/-- A fresh line, behind the finished lines. -/
theorem galley_startLine (p : Page) :
    p.startLine.galley = Galley.startLine { p.galley with parts := p.finishedParts } := by
  rw [Galley.startLine_eq, galley, parts_startLine]
  rfl

/-- A line that ends loses its blank parts at the end. -/
theorem trimmed_galley (hpure : ∀ x ∈ p.currentLine, x.IsPure) :
    p.galley.trimmed = p.finishedParts ++ Piece.parts (p.currentLine.dropWhile Piece.isBlank) := by
  rw [← Piece.rdropWhile_parts hpure]
  simp [Galley.trimmed, galley]

/-- A break of a page is one of its galley. What the page drops from the end of the line are the
blank parts at the end of the row. -/
theorem galley_breakLine (hpure : ∀ x ∈ p.currentLine, x.IsPure) :
    p.breakLine.galley = p.galley.breakLine := by
  have hparts : finishedParts
      { p with finished := p.currentLine.dropWhile Piece.isBlank :: p.finished } =
        p.galley.trimmed ++ [['\n']] := by
    rw [trimmed_galley hpure]
    simp [finishedParts]
  rw [breakLine, galley_startLine, hparts, Galley.breakLine, Galley.startLine_eq,
    Galley.startLine_eq]
  rfl

/-- A fresh line on a page is a padding of its galley: the row is cut off where the line begins, and
padded anew. -/
theorem galley_repad (p : Page) : p.startLine.galley = p.galley.repad := by
  rw [galley_startLine, Galley.repad, take_lineStart_galley]

/-- The end of a line of a page is one of its galley. -/
theorem galley_lineBreak (hpure : ∀ x ∈ p.currentLine, x.IsPure) :
    p.lineBreak.galley = p.galley.lineBreak := by
  rw [lineBreak, Galley.lineBreak, isLineBlank_galley]
  split
  · exact galley_repad p
  · exact galley_breakLine hpure

/-- An empty line of a page is one of its galley. -/
theorem galley_blankLine (hpure : ∀ x ∈ p.currentLine, x.IsPure) :
    p.blankLine.galley = p.galley.blankLine := by
  rw [blankLine, Galley.blankLine, isLineBlank_galley]
  split
  · exact galley_repad p
  · rw [galley_breakLine (accounted_breakLine p).pure, galley_breakLine hpure]

/-! ### Texts -/

/-- A text that is put on a page is put at the end of the row of its galley, and noted with the word
that is open. -/
theorem galley_put (p : Page) (t : Text) : (p.put t).galley = p.galley.put t := by
  have hparts : (p.put t).finishedParts ++ Piece.parts (p.put t).currentLine =
      p.finishedParts ++ Piece.parts p.currentLine ++ [p.style.stylize t] := by
    rw [currentLine_put, Piece.parts_cons, ← List.append_assoc]
    unfold put
    cases p.word <;> rfl
  rw [galley, hparts]
  unfold put Galley.put galley
  cases hw : p.word with
  | none => rfl
  | some w => simp [Piece.shown, Style.stylize, settings, finishedParts]

/-- A text that is appended to a page is appended to its galley. The two ask the same question about
the room on the line.

**Proof sketch.** By cases on the text and on the room, in the order in which the definitions ask.
Each branch is a break, a put text, or both, which have equations of their own. -/
theorem galley_append (hpure : ∀ x ∈ p.currentLine, x.IsPure) (t : Text) :
    (p.append t).galley = p.galley.append t := by
  have hword : p.galley.word.isSome = p.word.isSome := by simp [galley]
  have hwidth : p.galley.width = p.width := rfl
  rw [append, Galley.append, hword, hwidth, lineLength_galley, isLineBlank_galley]
  by_cases hnil : t = []
  · rw [if_pos hnil, if_pos hnil]
  by_cases hfeed : t = ['\n']
  · rw [if_neg hnil, if_pos hfeed, if_neg hnil, if_pos hfeed, galley_breakLine hpure]
  rw [if_neg hnil, if_neg hfeed, if_neg hnil, if_neg hfeed]
  by_cases hopen : p.word.isSome = true
  · simp [hopen, galley_put]
  by_cases hover : p.width < p.lineLength + t.length
  · have hfits : ¬ p.lineLength + t.length ≤ p.width := by omega
    simp only [hopen, hover, hfits, Bool.false_or, decide_false, Bool.false_eq_true, if_false,
      if_true]
    split
    · split
      · rfl
      · exact galley_breakLine hpure
    · split
      · exact galley_put p t
      · rw [galley_put, galley_breakLine hpure]
  · have hfits : p.lineLength + t.length ≤ p.width := by omega
    simp [hopen, hover, hfits, galley_put]

/-- A space that is appended to a page is appended to its galley. A line that is not blank ends in
its last piece, and the row of parts ends there too, so that both see whether the line ends in a
blank. -/
theorem galley_appendSpace (hp : p.Accounted) : p.appendSpace.galley = p.galley.appendSpace := by
  rw [appendSpace, Galley.appendSpace, isLineBlank_galley]
  by_cases hblank : p.isLineBlank = true
  · simp [hblank]
  · have hlast : p.galley.parts.getLast?.any Galley.isBlankPart =
        p.currentLine.head?.any Piece.isBlank := by
      cases hline : p.currentLine with
      | nil =>
        rw [hp.isLineBlank_eq, lineText, hline] at hblank
        exact absurd rfl hblank
      | cons x xs =>
        have hx : x.IsPure := hp.pure x (by rw [hline]; exact List.mem_cons_self)
        rw [galley, hline, Piece.parts_cons, ← List.append_assoc, List.getLast?_concat]
        exact Piece.isBlankPart_shown hx
    rw [hlast]
    simp only [hblank, Bool.false_or, Bool.false_eq_true, if_false]
    split
    · rfl
    · exact galley_append hp.pure [' ']

/-! ### Words -/

/-- Opening a word of a page opens one of its galley, which begins at the end of the row. -/
theorem galley_openWord (p : Page) : p.openWord.galley = p.galley.openWord := by
  unfold openWord Galley.openWord
  cases hw : p.word with
  | some w => simp [galley, hw, settings, finishedParts, currentLine]
  | none => simp [galley, hw, settings, finishedParts, currentLine, isLineBlank,
      Galley.isLineBlank]

variable {w : OpenWord}

/-- Settling a word of a page leaves the row of its galley as it is. -/
theorem galley_settleWord (hw : p.word = some w) :
    (p.settleWord w).galley = { p.galley with word := none } := by
  simp [settleWord, galley, hw, settings, finishedParts, currentLine]

/-- The row of parts ends in those of the word that is open. -/
theorem parts_galley_of_word (hw : p.word = some w) :
    p.galley.parts = (p.finishedParts ++ Piece.parts p.line) ++ Piece.parts w.pieces := by
  rw [galley, currentLine_of_word hw, Piece.parts_append, List.append_assoc]

/-- Carrying a word over cuts the row of the galley off where the word begins, ends the line there,
and puts the parts of the word behind the padding. -/
theorem galley_carryWord (hw : p.word = some w) (hpure : ∀ x ∈ p.line, x.IsPure) :
    (p.carryWord w).galley = p.galley.carryWord
      ⟨w.pieces.reverse.map fun x => (x.text, x.shown),
        (p.finishedParts ++ Piece.parts p.line).length, w.afterText⟩ := by
  have hbefore : galley { p with word := none } =
      { p.galley with
        parts := p.galley.parts.take (p.finishedParts ++ Piece.parts p.line).length
        word := none } := by
    rw [parts_galley_of_word hw, List.take_left]
    rfl
  have hnext := galley_breakLine (p := { p with word := none }) hpure
  rw [hbefore] at hnext
  rw [Galley.carryWord, ← hnext, Extent.foldl_add_texts, List.map_map]
  simp [carryWord, galley, currentLine, settings, finishedParts, breakLine, startLine, Piece.parts]

/-- Completing a word of a page completes that of its galley.

**Proof sketch.** Both carry the word over under the same conditions, as they agree about its
pieces, about what stood before it and about the length of the line. -/
theorem galley_completeWord (hpure : ∀ x ∈ p.currentLine, x.IsPure) :
    p.completeWord.galley = p.galley.completeWord := by
  cases hw : p.word with
  | none =>
    have hnone : p.galley.word = none := by rw [galley, hw]; rfl
    rw [completeWord, hw, Galley.completeWord, hnone]
  | some w =>
    have hline : ∀ x ∈ p.line, x.IsPure := fun x hx => hpure x (by
      rw [currentLine_of_word hw]
      exact List.mem_append_right _ hx)
    have hsome : p.galley.word = some
        ⟨w.pieces.reverse.map fun x => (x.text, x.shown),
          (p.finishedParts ++ Piece.parts p.line).length, w.afterText⟩ := by
      rw [galley, hw]
      rfl
    have hempty : (w.pieces.reverse.map fun x => (x.text, x.shown)).isEmpty = w.pieces.isEmpty := by
      rw [List.isEmpty_map, List.isEmpty_reverse]
    have hwidth : p.galley.width = p.width := rfl
    rw [completeWord, hw, Galley.completeWord, hsome]
    simp only [hempty, hwidth, lineLength_galley]
    split
    · exact galley_carryWord hw hline
    · exact galley_settleWord hw

/-- Closing a block of a page closes the block of its galley. The blocks are the same, and the word
is completed where the block owns it. -/
theorem galley_closeWord (hpure : ∀ x ∈ p.currentLine, x.IsPure) :
    p.closeWord.galley = p.galley.closeWord := by
  have hblocks : p.galley.blocks = p.blocks := rfl
  rw [closeWord, Galley.closeWord, hblocks]
  cases hb : p.blocks with
  | nil => rfl
  | cons owner outer =>
    cases owner with
    | false => rfl
    | true => exact galley_completeWord (p := { p with blocks := outer }) hpure

/-! ### Operations -/

/-- **One operation** leads from the galley of a page to that of the page it leads to.

**Proof sketch.** By cases on the operation. Those that touch the lines have equations of their own,
for which the pieces have to be accounted for; the others change settings, which are the same. -/
theorem galley_perform (hp : p.Accounted) (op : Operation) :
    (p.perform op).galley = p.galley.perform op := by
  cases op with
  | append t => exact galley_append hp.pure t
  | appendSpace => exact galley_appendSpace hp
  | breakLine => exact galley_breakLine hp.pure
  | lineBreak => exact galley_lineBreak hp.pure
  | blankLine => exact galley_blankLine hp.pure
  | openWord => exact galley_openWord p
  | closeWord => exact galley_closeWord hp.pure
  | popMargin =>
    cases hm : p.margins with
    | nil => simp [perform, popMargin?, hm, Galley.perform, Settings.perform, galley, settings]
    | cons amount more =>
      simp [perform, popMargin?, hm, Galley.perform, Settings.perform, galley, settings,
        finishedParts, currentLine]
  | setStyle | plainStyle | setNoFill | setIndent | storeIndent | forgetIndent | pushMargin
  | clearMargins | sectionMargin => rfl

/-- An operation leaves a page proper if the text that it appends is of one sort. -/
theorem Proper.perform (hp : p.Proper) (h : op.IsUniform) : (p.perform op).Proper :=
  (becomes_perform_of_isUniform p h).proper hp

/-- Operations leave a page proper if the texts that they append are each of one sort. -/
theorem Proper.performAll (hp : p.Proper) (h : ∀ op ∈ ops, op.IsUniform) :
    (p.performAll ops).Proper := by
  induction ops generalizing p with
  | nil => exact hp
  | cons op ops ih =>
    obtain ⟨hop, hops⟩ := List.forall_mem_cons.mp h
    exact ih (hp.perform hop) hops

/-- Operations lead from the galley of a page to that of the page they lead to. By induction on the
operations; a proper page stays one, and so one step can be taken after another. -/
theorem galley_performAll_of_proper (hp : p.Proper) (h : ∀ op ∈ ops, op.IsUniform) :
    (p.performAll ops).galley = p.galley.performAll ops := by
  induction ops generalizing p with
  | nil => rfl
  | cons op ops ih =>
    obtain ⟨hop, hops⟩ := List.forall_mem_cons.mp h
    have hall := ih (hp.perform hop) hops
    rw [galley_perform hp.accounted] at hall
    exact hall

/-- **Any operations** lead from the empty galley to the galley of the page that they lead to. -/
theorem galley_performAll (width : Int) (h : ∀ op ∈ ops, op.IsUniform) :
    ((ofWidth width).performAll ops).galley = (Galley.ofWidth width).performAll ops :=
  galley_performAll_of_proper (proper_ofWidth width) h

end Page

end Manpage

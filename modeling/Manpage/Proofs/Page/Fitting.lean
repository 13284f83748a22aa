import Manpage.Proofs.Page.Plain
import Manpage.Proofs.Page.Text
import Mathlib.Data.List.Chain

/-!
# Words that fit on a line

Words in fonts of their own are put on a line, with spaces between them. Where the line has room for
them they stand there one behind the other, with one plain space between any two, however many
spaces were asked for. A space that is asked for behind the last of them stands there too, unless
there is no room left, and then it ends the line.

## Main definitions

* `Manpage.Slot` — a space between words, or a word in a font.
* `Manpage.Page.set` — a slot put on a page.
* `Manpage.Page.Extends` — a page with more pieces on its line.
* `Manpage.Piece.spaced` — words with a space between any two.

## Main results

* `Manpage.Page.holds_foldl_set` — slots whose words fit on the line.
-/

namespace Manpage

variable {p q : Page} {x : Piece} {ps tail : List Piece} {t w : Text} {font : Font} {i : Slot}
  {slots : List Slot}

/-- The face that a font alone gives a text; regular gives none. -/
def Font.face? (font : Font) : Option Face :=
  (Style.plain.set font true).face?

/-- A space between words, or a word in a font. -/
inductive Slot where
  | space
  | word (font : Font) (w : Text)

namespace Slot

/-- The word of a slot, in its font. -/
def piece? : Slot → Option Piece
  | space => none
  | word font w => some ⟨w, font.face?⟩

/-- A word of ink. -/
def IsProper : Slot → Prop
  | space => True
  | word _ w => w ≠ [] ∧ w.isInk = true

/-- The words of slots. -/
def pieces (slots : List Slot) : List Piece :=
  slots.filterMap piece?

/-- The words of proper slots are ink. Each of them has the face of its font, and a face is for what
is not blank. -/
theorem isPure_of_mem_pieces (h : ∀ i ∈ slots, i.IsProper) :
    ∀ x ∈ pieces slots, x.IsPure ∧ x.isBlank = false := by
  intro x hx
  obtain ⟨i, hi, hpiece⟩ := List.mem_filterMap.mp hx
  cases i with
  | space => exact absurd hpiece (by simp [piece?])
  | word font w =>
    obtain rfl : ⟨w, font.face?⟩ = x := by simpa [piece?] using hpiece
    obtain ⟨hne, hink⟩ : w ≠ [] ∧ w.isInk = true := h _ hi
    have hblank : w.isBlank = false := Text.isBlank_eq_false_of_isInk hink hne
    exact ⟨⟨hne, Or.inr hink, fun hb => Bool.noConfusion (hblank.symm.trans hb)⟩, hblank⟩

/-- No two words without a space between them. -/
def Separated (slots : List Slot) : Prop :=
  slots.IsChain fun i j => i.piece?.isSome = true → j = space

end Slot

/-! ## Words with spaces between them -/

namespace Text

/-- One more text that is joined to others. -/
theorem join_append_of_ne_nil (separator : Text) {ls : List Text} (hne : ls ≠ []) (last : Text) :
    join separator (ls ++ [last]) = join separator ls ++ (separator ++ last) := by
  obtain ⟨front, l, rfl⟩ := (List.eq_nil_or_concat ls).resolve_left hne
  rw [List.concat_eq_append, join_append_singleton, join_append_singleton, List.flatMap_append,
    List.flatMap_singleton]
  simp only [List.append_assoc]

/-- Texts joined are no longer than the same texts with another one joined to them. -/
theorem length_join_le (separator : Text) (ls : List Text) (last : Text) :
    (join separator ls).length ≤ (join separator (ls ++ [last])).length := by
  by_cases hne : ls = []
  · subst hne
    exact Nat.zero_le _
  · rw [join_append_of_ne_nil separator hne, List.length_append]
    exact Nat.le_add_right _ _

end Text

namespace Piece

/-- Words with a space between any two, the latest first. -/
def spaced (ps : List Piece) : List Piece :=
  ps.reverse.intersperse space

/-- A piece that is added to spaced ones stands behind a space. -/
theorem spaced_append_singleton (hne : ps ≠ []) (x : Piece) :
    spaced (ps ++ [x]) = x :: space :: spaced ps := by
  obtain ⟨y, ys, hys⟩ := List.exists_cons_of_ne_nil (List.reverse_ne_nil_iff.mpr hne)
  rw [spaced, spaced, List.reverse_concat, hys]
  rfl

/-- Among spaced pieces there are the pieces and spaces. By induction from the last piece on, since
the pieces are spaced in front. -/
theorem mem_spaced (hx : x ∈ spaced ps) : x = space ∨ x ∈ ps := by
  induction ps using List.reverseRecOn with
  | nil => exact absurd hx List.not_mem_nil
  | append_singleton ps y ih =>
    by_cases hne : ps = []
    · subst hne
      exact Or.inr hx
    · rw [spaced_append_singleton hne, List.mem_cons, List.mem_cons] at hx
      rcases hx with rfl | rfl | hx
      · exact Or.inr (by simp)
      · exact Or.inl rfl
      · exact (ih hx).imp_right fun h => List.mem_append_left _ h

/-- The latest of spaced pieces is the last of the pieces. -/
theorem head?_spaced (ps : List Piece) : (spaced ps).head? = ps.getLast? := by
  rcases List.eq_nil_or_concat ps with rfl | ⟨front, x, rfl⟩
  · rfl
  · rw [List.concat_eq_append, List.getLast?_concat]
    by_cases hne : front = []
    · subst hne
      rfl
    · rw [spaced_append_singleton hne]
      rfl

/-- What is shown of words with spaces between them. By induction from the last word on. -/
theorem showLine_spaced (ps : List Piece) :
    showLine (spaced ps) = Text.join [' '] (ps.map shown) := by
  induction ps using List.reverseRecOn with
  | nil => rfl
  | append_singleton ps x ih =>
    by_cases hne : ps = []
    · subst hne
      simp [spaced, Text.join]
    · rw [spaced_append_singleton hne, showLine_cons, showLine_cons, ih, List.map_append,
        List.map_singleton, Text.join_append_of_ne_nil _ (by simpa using hne), List.append_assoc]
      rfl

/-- The characters of words with spaces between them. By induction from the last word on. -/
theorem lineText_spaced (ps : List Piece) :
    lineText (spaced ps) = Text.join [' '] (ps.map text) := by
  induction ps using List.reverseRecOn with
  | nil => rfl
  | append_singleton ps x ih =>
    by_cases hne : ps = []
    · subst hne
      simp [spaced, Text.join]
    · rw [spaced_append_singleton hne, lineText_cons, lineText_cons, ih, List.map_append,
        List.map_singleton, Text.join_append_of_ne_nil _ (by simpa using hne), List.append_assoc]
      rfl

end Piece

/-! ## Slots on a page -/

namespace Page

/-- A page with a slot put on it. A word is put there in its font, and the style stays. -/
def set (p : Page) : Slot → Page
  | .space => p.appendSpace
  | .word font w => { (p.setStyle font true).append w with style := p.style }

/-- Setting a word or a space leaves the settings as they are: the style is changed for the word
alone. -/
@[simp] theorem settings_set (p : Page) (i : Slot) : (p.set i).settings = p.settings := by
  cases i with
  | space => exact settings_appendSpace p
  | word font w =>
    have happend := settings_append (p.setStyle font true) w
    simp only [settings, Settings.mk.injEq] at happend ⊢
    exact ⟨rfl, happend.2⟩

/-- Setting a word or a space leaves the width as it is. -/
@[simp] theorem width_set (p : Page) (i : Slot) : (p.set i).width = p.width := by
  cases i with
  | space => exact width_appendSpace p
  | word font w =>
    have happend : ((p.setStyle font true).append w).width = p.width :=
      width_append (p.setStyle font true) w
    exact happend

/-- Setting words and spaces leaves the settings as they are. -/
theorem settings_foldl_set (p : Page) (slots : List Slot) :
    (slots.foldl set p).settings = p.settings := by
  induction slots generalizing p with
  | nil => rfl
  | cons i slots ih => rw [List.foldl_cons, ih, settings_set]

/-- Setting words and spaces leaves the width as it is. -/
theorem width_foldl_set (p : Page) (slots : List Slot) :
    (slots.foldl set p).width = p.width := by
  induction slots generalizing p with
  | nil => rfl
  | cons i slots ih => rw [List.foldl_cons, ih, width_set]

/-- A page with more pieces on its line, the latest first. -/
structure Extends (p : Page) (tail : List Piece) (q : Page) : Prop where
  finished_eq : q.finished = p.finished
  currentLine_eq : q.currentLine = tail ++ p.currentLine
  extent_eq : q.extent = p.extent.addPieces tail

namespace Extends

/-- A page extends itself by nothing. -/
theorem refl (p : Page) : p.Extends [] p :=
  ⟨rfl, rfl, rfl⟩

/-- A page that is extended shows what the extension shows, behind what it showed before. -/
theorem shown_eq (h : p.Extends tail q) : q.shown = p.shown ++ Piece.showLine tail := by
  rw [shown, h.finished_eq, h.currentLine_eq, Piece.showLine_append, shown, List.append_assoc]

/-- A page that is extended has a line longer by the characters of the extension. -/
theorem lineLength_eq (h : p.Extends tail q) :
    q.lineLength = p.lineLength + (Piece.lineText tail).length := by
  rw [lineLength, h.extent_eq, Extent.length_addPieces, lineLength]

/-- The line of a page that is extended is blank just if it was blank and the extension is. -/
theorem isLineBlank_eq (h : p.Extends tail q) (hpure : ∀ x ∈ tail, x.IsPure) :
    q.isLineBlank = (p.isLineBlank && (Piece.lineText tail).isBlank) := by
  rw [isLineBlank, h.extent_eq, Extent.isBlank_addPieces _ hpure, isLineBlank]

/-- One more piece that fits. -/
theorem put (h : p.Extends tail q) (t : Text) :
    p.Extends (⟨t, q.style.faceOf t⟩ :: tail) (q.put t) := by
  refine ⟨?_, ?_, ?_⟩
  · rw [finished_put, h.finished_eq]
  · rw [currentLine_put, h.currentLine_eq, List.cons_append]
  · rw [extent_put, h.extent_eq, Extent.addPieces_cons]

end Extends

/-- A line that ends in no blank, ended. It is shown as it was, with a line feed and the padding of
the next line behind it. -/
theorem shown_breakLine (h : ∀ x ∈ p.currentLine.head?, x.isBlank = false) :
    p.breakLine.shown = p.shown ++ '\n' :: Text.spaces p.padding := by
  have hline : p.currentLine.dropWhile Piece.isBlank = p.currentLine := by
    cases hcurrent : p.currentLine with
    | nil => rfl
    | cons x xs =>
      rw [hcurrent] at h
      exact List.dropWhile_cons_of_neg (by simp [h x rfl])
  have hpadding : Piece.showLine (List.replicate p.padding Piece.space) =
      Text.spaces p.padding := by
    unfold Piece.showLine Text.spaces
    rw [List.reverse_replicate]
    induction p.padding with
    | zero => rfl
    | succ n ih => rw [List.replicate_succ, List.flatMap_cons, ih]; rfl
  have hfresh : p.breakLine.currentLine = List.replicate p.padding Piece.space := rfl
  rw [shown, hfresh, hpadding, finished_breakLine, hline, List.reverse_cons, List.flatMap_append,
    List.flatMap_singleton, shown]
  simp only [List.append_assoc, List.singleton_append]

/-! ## Words that fit -/

/-- A space is put where it fits, and in a word. Otherwise it ends the line, unless that is blank.
-/
theorem append_space (p : Page) :
    p.append [' '] = if p.word.isSome || p.lineLength + 1 ≤ p.width then p.put [' ']
      else if p.isLineBlank then p else p.breakLine := by
  rw [append, if_neg (by decide), if_neg (by decide), if_pos rfl]
  rfl

/-- A space behind ink. It is put there if it fits, and breaks the line if not. -/
theorem appendSpace_cases (hblank : p.isLineBlank = false)
    (hlast : p.currentLine.head?.any Piece.isBlank = false) :
    p.appendSpace = p.put [' '] ∨
      (p.appendSpace = p.breakLine ∧ p.width < p.lineLength + 1) := by
  rw [appendSpace, hblank, hlast, if_neg (by simp), append_space]
  split
  · exact Or.inl rfl
  · rename_i hfits
    rw [hblank, if_neg (by simp)]
    refine Or.inr ⟨rfl, ?_⟩
    simp only [Bool.or_eq_true, decide_eq_true_eq, not_or] at hfits
    omega

/-- A page with words on its line where another word may follow. -/
inductive Ready (p : Page) : List Piece → Page → Prop where
  /-- no word as yet -/
  | start {q : Page} (h : p.Extends [] q) : Ready p [] q
  /-- a space behind the words -/
  | space {ps : List Piece} {q : Page} (hne : ps ≠ [])
      (h : p.Extends (Piece.space :: Piece.spaced ps) q) : Ready p ps q
  /-- a line that the words have filled, ended -/
  | lineEnd {ps : List Piece} {q : Page} (hne : ps ≠ [])
      (hfull : p.lineLength + (Text.join [' '] (ps.map Piece.text)).length = p.width)
      (hshown : q.shown = p.shown ++ (Text.join [' '] (ps.map Piece.shown) ++
        '\n' :: Text.spaces (p.settings.padding p.width)))
      (hblank : q.isLineBlank = true) : Ready p ps q

/-- A page with words on its line. -/
def Holds (p : Page) (ps : List Piece) (q : Page) : Prop :=
  p.Extends (Piece.spaced ps) q ∨ p.Ready ps q

/-- What is shown of words that fit. Behind them stands nothing, or a space, or the padding of the
next line where a space went over the end. -/
theorem Holds.shown_eq (h : p.Holds ps q) :
    ∃ trail, q.shown = p.shown ++ (Text.join [' '] (ps.map Piece.shown) ++ trail) ∧
      (trail = [] ∨ trail = [' '] ∨
        p.lineLength + (Text.join [' '] (ps.map Piece.text)).length = p.width ∧
          trail = '\n' :: Text.spaces (p.settings.padding p.width)) := by
  rcases h with h | h
  · refine ⟨[], ?_, Or.inl rfl⟩
    rw [h.shown_eq, Piece.showLine_spaced, List.append_nil]
  · cases h with
    | start h => exact ⟨[], by rw [h.shown_eq]; rfl, Or.inl rfl⟩
    | space hne h =>
      refine ⟨[' '], ?_, Or.inr (Or.inl rfl)⟩
      rw [h.shown_eq, Piece.showLine_cons, Piece.showLine_spaced]
      rfl
    | lineEnd hne hfull hshown hblank => exact ⟨_, hshown, Or.inr (Or.inr ⟨hfull, rfl⟩)⟩

section

variable (hblank : p.isLineBlank = true)
  (hps : ∀ x ∈ ps, x.IsPure ∧ x.isBlank = false)
  (hsettings : q.settings = p.settings) (hwidth : q.width = p.width)

include hblank hps in
/-- A line with a word on it is not blank: its last piece is the last word, since spaces stand
between words only. -/
theorem Extends.not_isLineBlank (h : p.Extends (Piece.spaced ps) q) (hne : ps ≠ []) :
    q.isLineBlank = false ∧ ∃ x more, q.currentLine = x :: more ∧ x.isBlank = false := by
  obtain ⟨front, x, rfl⟩ := (List.eq_nil_or_concat ps).resolve_left hne
  rw [List.concat_eq_append] at *
  obtain ⟨-, hx⟩ := hps x (by simp)
  have hpure : ∀ y ∈ Piece.spaced (front ++ [x]), y.IsPure := by
    intro y hy
    rcases Piece.mem_spaced hy with rfl | hy
    · exact Piece.isPure_space
    · exact (hps y hy).1
  have htail : ∃ more, Piece.spaced (front ++ [x]) = x :: more := by
    have hhead := Piece.head?_spaced (front ++ [x])
    rw [List.getLast?_concat] at hhead
    exact ⟨_, List.eq_cons_of_mem_head? hhead⟩
  obtain ⟨more, hmore⟩ := htail
  have htext : x.text.isBlank = false := hx
  refine ⟨?_, x, more ++ p.currentLine, ?_, hx⟩
  · rw [h.isLineBlank_eq hpure, hblank, hmore, Piece.lineText_cons, Text.isBlank_append, htext,
      Bool.and_false, Bool.and_false]
  · rw [h.currentLine_eq, hmore, List.cons_append]

include hblank hps hsettings hwidth in
/-- A space behind words that fit.

**Proof sketch.** By cases on what stands on the line. Where there is no word yet, or a space
already, the space is left out. Behind a word it is put on the line if there is room; otherwise the
line is full and ends. -/
theorem Holds.set_space (h : p.Holds ps q)
    (hroom : p.lineLength + (Text.join [' '] (ps.map Piece.text)).length ≤ p.width) :
    p.Ready ps (q.set .space) := by
  have hskip : q.isLineBlank = true ∨ q.currentLine.head?.any Piece.isBlank = true →
      q.set .space = q := by
    intro h
    rw [set, appendSpace, if_pos (by simpa using h)]
  rcases h with h | h
  · by_cases hne : ps = []
    · subst hne
      rw [hskip (Or.inl (by rw [h.isLineBlank_eq (by simp [Piece.spaced]), hblank]; rfl))]
      exact .start h
    · obtain ⟨hq, x, more, hline, hx⟩ := h.not_isLineBlank hblank hps hne
      have hhead : q.currentLine.head?.any Piece.isBlank = false := by simp [hline, hx]
      rcases appendSpace_cases hq hhead with hput | ⟨hbreak, hover⟩
      · rw [set, hput]
        exact .space hne (h.put [' '])
      · -- the space breaks the line only where the words fill it to the end
        rw [set, hbreak]
        rw [h.lineLength_eq, Piece.lineText_spaced, hwidth] at hover
        refine .lineEnd hne (by omega) ?_ rfl
        rw [shown_breakLine (by simp [hline, hx]), h.shown_eq, Piece.showLine_spaced, padding_eq,
          hsettings, hwidth, List.append_assoc]
  · cases h with
    | start h =>
      rw [hskip (Or.inl (by rw [h.isLineBlank_eq (by simp), hblank]; rfl))]
      exact .start h
    | space hne h =>
      rw [hskip (Or.inr (by rw [h.currentLine_eq]; rfl))]
      exact .space hne h
    | lineEnd hne hfull hshown hq =>
      rw [hskip (Or.inl hq)]
      exact .lineEnd hne hfull hshown hq

end

/-- A word, where it fits behind the others. It comes onto the line in its face, behind the space
that has been put there.

**Proof sketch.** By cases on what stands on the line. The length of the words joined by spaces is
that of the line with the new word, so that there is room; a line that is full contradicts this. -/
theorem Ready.set_word (h : p.Ready ps q) (hstyle : q.style = .plain) (hwidth : q.width = p.width)
    (hne : w ≠ []) (hink : w.isInk = true)
    (hroom : p.lineLength + (Text.join [' '] ((ps.map Piece.text) ++ [w])).length ≤ p.width) :
    p.Holds (ps ++ [⟨w, font.face?⟩]) (q.set (.word font w)) := by
  have hset : ∀ tail, p.Extends tail q → q.lineLength + w.length ≤ q.width →
      p.Extends (⟨w, font.face?⟩ :: tail) (q.set (.word font w)) := by
    intro tail h hfits
    have hfont : p.Extends tail (q.setStyle font true) := ⟨h.1, h.2, h.3⟩
    have hput := hfont.put w
    have hface : (q.setStyle font true).style.faceOf w = font.face? := by
      have hw : w.isBlank = false := Text.isBlank_eq_false_of_isInk hink hne
      rw [setStyle, hstyle, Style.faceOf, hw, if_neg (by simp), Font.face?]
    have happend : (q.setStyle font true).append w = (q.setStyle font true).put w :=
      append_of_fits hne (Text.ne_newline_of_isInk hink) hfits
    rw [hface, ← happend] at hput
    exact ⟨hput.1, hput.2, hput.3⟩
  cases h with
  | start h =>
    refine Or.inl (hset [] h ?_)
    rw [h.lineLength_eq, hwidth]
    simpa [Text.join] using hroom
  | space hps h =>
    refine Or.inl ?_
    rw [Piece.spaced_append_singleton hps]
    refine hset _ h ?_
    rw [Text.join_append_of_ne_nil _ (by simpa using hps)] at hroom
    rw [h.lineLength_eq, hwidth, Piece.lineText_cons, Piece.lineText_spaced]
    simp only [List.length_append, List.length_singleton, Piece.space] at hroom ⊢
    omega
  | lineEnd hps hfull hshown hblank =>
    -- the line is full, so there was no room for another word
    rw [Text.join_append_of_ne_nil _ (by simpa using hps)] at hroom
    simp only [List.length_append, List.length_singleton] at hroom
    omega

/-- **Slots whose words fit on the line.** They stand there with one space between any two.

**Proof sketch.** Induction on the slots, the last one at the end. Before a word there is a space,
or no word at all, so another word may follow. -/
theorem holds_foldl_set (hblank : p.isLineBlank = true) (hstyle : p.style = .plain)
    (hslots : ∀ i ∈ slots, i.IsProper) (hseparated : Slot.Separated slots)
    (hroom : p.lineLength +
      (Text.join [' '] ((Slot.pieces slots).map Piece.text)).length ≤ p.width) :
    p.Holds (Slot.pieces slots) (slots.foldl set p) ∧
      ((∀ i ∈ slots.getLast?, i = .space) →
        p.Ready (Slot.pieces slots) (slots.foldl set p)) := by
  induction slots using List.reverseRecOn with
  | nil => exact ⟨Or.inl (.refl p), fun _ => .start (.refl p)⟩
  | append_singleton slots i ih =>
    obtain ⟨hproper, hi⟩ := List.forall_mem_append.mp hslots
    obtain ⟨hbefore, -, hlast⟩ := List.isChain_append.mp hseparated
    have hsettings := settings_foldl_set p slots
    have hwidth := width_foldl_set p slots
    have hpure := Slot.isPure_of_mem_pieces hproper
    rw [List.foldl_append, List.foldl_cons, List.foldl_nil, List.getLast?_concat]
    cases i with
    | space =>
      have hpieces : Slot.pieces (slots ++ [.space]) = Slot.pieces slots := by
        simp [Slot.pieces, Slot.piece?]
      rw [hpieces] at hroom ⊢
      have hready := (ih hproper hbefore hroom).1.set_space hblank hpure hsettings hwidth hroom
      exact ⟨Or.inr hready, fun _ => hready⟩
    | word font w =>
      obtain ⟨hne, hink⟩ : w ≠ [] ∧ w.isInk = true := hi _ List.mem_cons_self
      have hpieces : Slot.pieces (slots ++ [.word font w]) =
          Slot.pieces slots ++ [⟨w, font.face?⟩] := by
        simp [Slot.pieces, Slot.piece?]
      rw [hpieces, List.map_append, List.map_singleton] at hroom
      have hfits : p.lineLength +
          (Text.join [' '] ((Slot.pieces slots).map Piece.text)).length ≤ p.width :=
        (Nat.add_le_add_left (Text.length_join_le _ _ _) _).trans hroom
      obtain ⟨-, hready⟩ := ih hproper hbefore hfits
      -- the slot before a word is a space, so the page is ready for the word
      have hspace : ∀ j ∈ slots.getLast?, j = .space := by
        intro j hj
        cases j with
        | space => rfl
        | word font w => exact absurd (hlast _ hj _ rfl rfl) (by simp)
      have hplain : (slots.foldl set p).style = .plain :=
        (congrArg Settings.style hsettings).trans hstyle
      rw [hpieces]
      exact ⟨(hready hspace).set_word hplain hwidth hne hink hroom, by simp⟩

end Page

end Manpage

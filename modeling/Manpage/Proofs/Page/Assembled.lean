import Manpage.Proofs.Page.Alike
import Manpage.Proofs.Page.Decoration

/-!
# Words put together from parts

A word that is put together from parts in a block of its own stands on the page like a word that is
appended at once, although the page takes another way: the parts go onto the line one by one, and
the word is carried over in the end if it has become too long. The two pages differ at most in where
their ink is divided into pieces.

## Main definitions

* `Manpage.Page.Owned` — a page on which a word is open only within a block of its own.
* `Manpage.Page.Operation.Assembles` — operations that put a word together from parts.

## Main results

* `Manpage.Page.owned_performAll` — this is so on any page that operations lead to.
* `Manpage.Page.alike_assembled` — a word put together from parts and the word at once lead to pages
  that are alike.
* `Manpage.Page.performAll_assembled` — so they have the same text, at once and ever after.
-/

namespace Manpage

/-- Texts of ink are ink when they are put together. -/
theorem Text.isInk_flatten {parts : List Text} (h : ∀ t ∈ parts, t.isInk = true) :
    isInk parts.flatten = true := by
  rw [isInk_iff]
  intro c hc
  obtain ⟨t, ht, hc⟩ := List.mem_flatten.mp hc
  exact isInk_iff.mp (h t ht) c hc

/-- A text of ink takes up what its two parts do. The first character says of which sort a text is,
and those of ink say the same. -/
theorem Extent.add_append (e : Extent) {t u : Text} (ht : t.isInk = true) (hu : u.isInk = true) :
    e.add (t ++ u) = (e.add t).add u := by
  cases t with
  | nil => rfl
  | cons c t =>
    cases u with
    | nil => rw [List.append_nil, add]
    | cons d u =>
      simp only [Text.isInk_cons, Bool.and_eq_true, Bool.not_eq_true'] at ht hu
      simp [add, ht.1, hu.1]
      omega

namespace Page

/-! ## Open words and their blocks -/

/-- A word is open only within a block that owns it. -/
def Owned (p : Page) : Prop :=
  p.word.isSome = true → true ∈ p.blocks

section

variable {p : Page}

/-- Where no word is open, there is none that a block would have to own. -/
theorem owned_of_word_eq_none (h : p.word = none) : p.Owned := by
  intro hsome
  rw [h] at hsome
  exact Bool.noConfusion hsome

/-- Where no block is open, no word is. -/
theorem Owned.word_eq_none (h : p.Owned) (hblocks : p.blocks = []) : p.word = none := by
  rw [← Option.not_isSome_iff_eq_none]
  intro hsome
  have hmem := h hsome
  rw [hblocks] at hmem
  exact List.not_mem_nil hmem

/-- Putting a text leaves the open word with its block. -/
theorem Owned.put (h : p.Owned) (t : Text) : (p.put t).Owned := by
  intro hsome
  rw [blocks_put]
  cases hw : p.word with
  | none =>
    rw [word_put_of_none hw] at hsome
    exact Bool.noConfusion hsome
  | some w => exact h (by rw [hw]; rfl)

/-- Appending a text leaves the open word with its block, or gives it up with a break. The four ways
a text can go are those of `append_eq`. -/
theorem Owned.append (h : p.Owned) (t : Text) : (p.append t).Owned := by
  rcases append_eq p t with heq | heq | heq | heq
  · rw [heq]
    exact h
  · rw [heq]
    exact h.put t
  · rw [heq]
    exact owned_of_word_eq_none rfl
  · rw [heq]
    exact Owned.put (owned_of_word_eq_none rfl) t

/-- A word is opened in a block of its own, unless one is open already that has its block. -/
theorem Owned.openWord (h : p.Owned) : p.openWord.Owned := by
  cases hw : p.word with
  | none =>
    rw [openWord_of_none hw]
    exact fun _ => List.mem_cons_self
  | some w =>
    rw [openWord_of_some hw]
    exact fun hsome => List.mem_cons_of_mem false (h hsome)

/-- Behind the completion of a word none is open. It is settled or carried over, and given up either
way. -/
theorem owned_completeWord (p : Page) : p.completeWord.Owned := by
  cases hw : p.word with
  | none =>
    rw [completeWord, hw]
    exact owned_of_word_eq_none hw
  | some w =>
    rcases completeWord_cases hw with ⟨heq, -⟩ | heq
    · rw [heq]
      exact owned_of_word_eq_none rfl
    · rw [heq]
      exact owned_of_word_eq_none rfl

/-- Closing a block leaves the open word with its block: if the block that is closed owns it, the
word is completed. -/
theorem Owned.closeWord (h : p.Owned) : p.closeWord.Owned := by
  unfold Page.closeWord
  split
  · exact h
  · rename_i owner outer hblocks
    cases owner with
    | true => exact owned_completeWord _
    | false =>
      intro hsome
      have hmem := h hsome
      rw [hblocks] at hmem
      exact (List.mem_cons.mp hmem).resolve_left (by decide)

/-- Whatever is done to a page, a word is open only within a block that owns it.

**Proof sketch.** By cases on the operation: breaks give up the word, and of the others only the
two for blocks open or close any. -/
theorem Owned.perform (h : p.Owned) (op : Operation) : (p.perform op).Owned := by
  cases op with
  | append t => exact h.append t
  | appendSpace =>
    simp only [Page.perform, appendSpace]
    split
    · exact h
    · exact h.append [' ']
  | lineBreak =>
    simp only [Page.perform, lineBreak]
    split <;> exact owned_of_word_eq_none rfl
  | blankLine =>
    simp only [Page.perform, blankLine]
    split <;> exact owned_of_word_eq_none rfl
  | breakLine => exact owned_of_word_eq_none rfl
  | openWord => exact h.openWord
  | closeWord => exact h.closeWord
  | popMargin =>
    simp only [Page.perform, popMargin?]
    split <;> exact h
  | setStyle | plainStyle | setNoFill | setIndent | storeIndent | forgetIndent | pushMargin
  | clearMargins | sectionMargin => exact h

/-- On every page that operations can lead to, the open word has its block. -/
theorem owned_performAll (width : Int) (ops : List Operation) :
    ((ofWidth width).performAll ops).Owned :=
  List.foldlRecOn ops perform (motive := Owned) (owned_of_word_eq_none rfl)
    fun _ h op _ => h.perform op

end

/-! ## Words put together from parts -/

namespace Operation

/-- Operations that put a word together: they append its parts of ink one by one, in blocks of
their own at will, and change the style at will. -/
inductive Assembles : List Operation → List Text → Prop
  | nil : Assembles [] []
  | append {t : Text} {ops : List Operation} {parts : List Text} (hne : t ≠ [])
      (hink : t.isInk = true) (h : Assembles ops parts) : Assembles (append t :: ops) (t :: parts)
  | styling {op : Operation} {ops : List Operation} {parts : List Text}
      (hop : op.isStyling = true) (h : Assembles ops parts) : Assembles (op :: ops) parts
  | block {inner ops : List Operation} {parts more : List Text} (hinner : Assembles inner parts)
      (h : Assembles ops more) : Assembles (openWord :: inner ++ closeWord :: ops) (parts ++ more)

namespace Assembles

variable {ops : List Operation} {parts : List Text}

/-- The parts of a word are not empty and are ink. By induction on how they are put together. -/
theorem ink (h : Assembles ops parts) : ∀ t ∈ parts, t ≠ [] ∧ t.isInk = true := by
  induction h with
  | nil => exact fun t ht => absurd ht List.not_mem_nil
  | append hne hink _ ih =>
    intro t ht
    rcases List.mem_cons.mp ht with rfl | ht
    · exact ⟨hne, hink⟩
    · exact ih t ht
  | styling _ _ ih => exact ih
  | block _ _ ihinner ih =>
    intro t ht
    rcases List.mem_append.mp ht with ht | ht
    · exact ihinner t ht
    · exact ih t ht

/-- Each part of a word is appended by one of the operations. By induction on how they are put
together; the operations of an inner block are among those of the outer one. -/
theorem mem (h : Assembles ops parts) {t : Text} (ht : t ∈ parts) :
    Operation.append t ∈ ops := by
  induction h with
  | nil => exact absurd ht List.not_mem_nil
  | append _ _ _ ih =>
    rcases List.mem_cons.mp ht with rfl | ht
    · exact List.mem_cons_self
    · exact List.mem_cons_of_mem _ (ih ht)
  | styling _ _ ih => exact List.mem_cons_of_mem _ (ih ht)
  | block _ _ ihinner ih =>
    rcases List.mem_append.mp ht with ht | ht
    · exact List.mem_append_left _ (List.mem_cons_of_mem _ (ihinner ht))
    · exact List.mem_append_right _ (List.mem_cons_of_mem _ (ih ht))

/-- Without the changes of style the same parts are put together. By induction: what opens and
closes a block changes no style, and neither does what appends a part. -/
theorem filter (h : Assembles ops parts) :
    Assembles (ops.filter fun op => !op.isStyling) parts := by
  induction h with
  | nil => exact nil
  | append hne hink _ ih => exact append hne hink ih
  | styling hop _ ih =>
    rw [List.filter_cons_of_neg (by simp [hop])]
    exact ih
  | block _ _ ihinner ih =>
    rw [List.filter_append]
    exact block ihinner ih

end Assembles

end Operation

/-- The pieces that the parts of a word are put down as, the latest first. -/
def piecesOf (style : Style) (parts : List Text) : List Piece :=
  (parts.map fun t => ⟨t, style.faceOf t⟩).reverse

/-- In one style, the first part of a word is its earliest piece. -/
theorem piecesOf_cons (style : Style) (t : Text) (parts : List Text) :
    piecesOf style (t :: parts) = piecesOf style parts ++ [⟨t, style.faceOf t⟩] := by
  simp [piecesOf]

/-- In one style, the pieces of parts are those of the first parts, and later those of the others.
-/
theorem piecesOf_append (style : Style) (parts more : List Text) :
    piecesOf style (parts ++ more) = piecesOf style more ++ piecesOf style parts := by
  simp [piecesOf]

/-- No operations leave a page as it is. -/
@[simp] theorem performAll_nil (p : Page) : p.performAll [] = p := rfl

/-- Operations are performed one after another. -/
@[simp] theorem performAll_cons (p : Page) (op : Operation) (ops : List Operation) :
    p.performAll (op :: ops) = (p.perform op).performAll ops := rfl

/-- Two rows of operations are performed one after the other. -/
@[simp] theorem performAll_append (p : Page) (ops more : List Operation) :
    p.performAll (ops ++ more) = (p.performAll ops).performAll more :=
  List.foldl_append

section

variable {p : Page} {w : OpenWord} {ops : List Operation} {parts : List Text}

/-- Parts that are put together while a word is open go into that word.

**Proof sketch.** By induction on how the parts are put together. A part goes into the open word,
whatever the room; a block within it opens no word of its own, so that its parts go into the same
word and its closing has no effect. -/
theorem performAll_of_assembles (h : Operation.Assembles ops parts)
    (hstyle : ∀ op ∈ ops, op.isStyling = false) (hw : p.word = some w) :
    p.performAll ops = { p with
      extent := p.extent.addPieces (piecesOf p.style parts)
      word := some { w with pieces := piecesOf p.style parts ++ w.pieces } } := by
  induction h generalizing p w with
  | nil =>
    change p = { p with word := some w }
    rw [← hw]
  | @append t ops parts hne hink _ ih =>
    have hmore : ∀ op ∈ ops, op.isStyling = false :=
      fun op hop => hstyle op (List.mem_cons_of_mem _ hop)
    rw [performAll_cons, perform, append_ink_of_word hne hink hw, put_of_some hw, ih hmore rfl,
      piecesOf_cons, Extent.addPieces_append, List.append_assoc]
    rfl
  | styling hop _ _ =>
    rw [hstyle _ List.mem_cons_self] at hop
    exact Bool.noConfusion hop
  | @block inner ops parts more _ _ ihinner ih =>
    have hwithin : ∀ op ∈ inner, op.isStyling = false := fun op hop =>
      hstyle op (List.mem_append_left _ (List.mem_cons_of_mem _ hop))
    have hafter : ∀ op ∈ ops, op.isStyling = false := fun op hop =>
      hstyle op (List.mem_append_right _ (List.mem_cons_of_mem _ hop))
    have hinner := ihinner (p := { p with blocks := false :: p.blocks }) hwithin hw
    have hclose : ∀ e u, ({ p with extent := e, word := u, blocks := false :: p.blocks } :
        Page).closeWord = { p with extent := e, word := u } := fun _ _ => rfl
    rw [performAll_append, performAll_cons, performAll_cons, perform, openWord_of_some hw, hinner,
      perform, hclose, ih hafter rfl, piecesOf_append, Extent.addPieces_append, List.append_assoc]

/-- In the plain style the pieces of a word are shown as the word. -/
theorem showLine_piecesOf (parts : List Text) :
    Piece.showLine (piecesOf .plain parts) = parts.flatten := by
  induction parts with
  | nil => rfl
  | cons t parts ih =>
    have hface : Style.plain.faceOf t = none := ite_self none
    rw [piecesOf_cons, Piece.showLine_append, ih, List.flatten_cons, hface, Piece.showLine_cons]
    rfl

/-- The parts of a word take up the columns of the word. -/
theorem addPieces_piecesOf (e : Extent) (style : Style) (h : ∀ t ∈ parts, t.isInk = true) :
    e.addPieces (piecesOf style parts) = e.add parts.flatten := by
  induction parts generalizing e with
  | nil => rfl
  | cons t parts ih =>
    have hmore : ∀ t ∈ parts, t.isInk = true := fun u hu => h u (List.mem_cons_of_mem t hu)
    rw [piecesOf_cons, Extent.addPieces_append, ih _ hmore, List.flatten_cons]
    exact (Extent.add_append e (h t List.mem_cons_self) (Text.isInk_flatten hmore)).symm

/-- The parts of a word put down one by one, or the word at once.

**Proof sketch.** The pieces of the parts are ink without a face, and shown one after the other they
are the whole word. Their extents add up to that of the word. -/
theorem alike_put (hw : p.word = none) (hstyle : p.style = .plain) (hne : parts ≠ [])
    (hink : ∀ t ∈ parts, t ≠ [] ∧ t.isInk = true) :
    Alike { p with
      extent := p.extent.addPieces (piecesOf p.style parts)
      line := piecesOf p.style parts ++ p.line } (p.put parts.flatten) := by
  have hall : ∀ t ∈ parts, t.isInk = true := fun t ht => (hink t ht).2
  have hflat : parts.flatten ≠ [] := by
    obtain ⟨t, more, rfl⟩ := List.exists_cons_of_ne_nil hne
    simp [(hink t List.mem_cons_self).1]
  have hblank : ∀ t : Text, t.isInk = true → t ≠ [] → ¬ t.isBlank = true := fun t ht htne => by
    rw [Text.isBlank_eq_false_of_isInk ht htne]
    exact Bool.false_ne_true
  have hface : p.style.faceOf parts.flatten = none := by
    rw [hstyle]
    exact ite_self none
  have hpieces : ∀ x ∈ piecesOf p.style parts, ¬ x.isBlank = true := by
    intro x hx
    rw [piecesOf, List.mem_reverse] at hx
    obtain ⟨t, ht, rfl⟩ := List.mem_map.mp hx
    exact hblank t (hink t ht).2 (hink t ht).1
  have hshown : Piece.showLine (piecesOf p.style parts) =
      Piece.shown ⟨parts.flatten, p.style.faceOf parts.flatten⟩ := by
    rw [hface, hstyle, showLine_piecesOf]
    rfl
  rw [put_of_none hw, ← addPieces_piecesOf p.extent p.style hall]
  refine Alike.intro (p := { p with extent := _, line := piecesOf p.style parts ++ p.line })
    (List.forall₂_same.mpr fun line _ => Piece.Alike.refl line)
    (.joined ?_ hpieces (hblank _ (Text.isInk_flatten hall) hflat) hshown (Piece.Alike.refl _))
  simpa [piecesOf] using hne

/-- The page with a word opened on it and the parts of the word put into it. -/
def holding (p : Page) (parts : List Text) : Page :=
  { p with
    extent := p.extent.addPieces (piecesOf p.style parts)
    word := some ⟨piecesOf p.style parts, !p.isLineBlank⟩ }

/-- A block of parts in one style comes down to a page that holds them as its open word, which is
then completed. -/
theorem performAll_block (hw : p.word = none) (h : Operation.Assembles ops parts)
    (hops : ∀ op ∈ ops, op.isStyling = false) :
    p.performAll (.openWord :: ops ++ [.closeWord]) = (p.holding parts).completeWord := by
  have hinner := performAll_of_assembles
    (p := { p with blocks := true :: p.blocks, word := some ⟨[], !p.isLineBlank⟩ }) h hops rfl
  simp only [performAll_append, performAll_cons, performAll_nil, perform, openWord_of_none hw,
    hinner, List.append_nil]
  rfl

/-- A word without parts leaves nothing behind. -/
@[simp] theorem completeWord_holding_nil (hw : p.word = none) :
    (p.holding []).completeWord = p := by
  have hsettled : (p.holding []).completeWord = { p with word := none } := rfl
  rw [hsettled, ← hw]

/-- The parts of a complete word stay on the line, unless it has other text and is too long.

**Proof sketch.** The line has grown by the parts while they were in the word, so that the question
whether it is too long now is the one that is asked for the whole word before. Both answers are
spelled out. -/
theorem completeWord_holding (hw : p.word = none) (hne : parts ≠ [])
    (hink : ∀ t ∈ parts, t.isInk = true) :
    (p.holding parts).completeWord =
      if !p.isLineBlank && p.width < p.lineLength + parts.flatten.length then
        { p.breakLine with
          extent := p.breakLine.extent.addPieces (piecesOf p.style parts)
          line := piecesOf p.style parts ++ p.breakLine.line }
      else
        { p with
          extent := p.extent.addPieces (piecesOf p.style parts)
          line := piecesOf p.style parts ++ p.line } := by
  have hlength : (p.holding parts).lineLength = p.lineLength + parts.flatten.length := by
    rw [lineLength, holding, addPieces_piecesOf _ _ hink, Extent.length_add]
    rfl
  have hpieces : (piecesOf p.style parts).isEmpty = false := by
    simpa [piecesOf] using hne
  have hsettle : (p.holding parts).settleWord ⟨piecesOf p.style parts, !p.isLineBlank⟩ = { p with
      extent := p.extent.addPieces (piecesOf p.style parts)
      line := piecesOf p.style parts ++ p.line } := by
    simp [settleWord, holding, hw]
  have hcarry : (p.holding parts).carryWord ⟨piecesOf p.style parts, !p.isLineBlank⟩ =
      { p.breakLine with
        extent := p.breakLine.extent.addPieces (piecesOf p.style parts)
        line := piecesOf p.style parts ++ p.breakLine.line } := by
    simp [carryWord, holding, breakLine, startLine, padding, margin, currentLine, hw]
  have hword : (p.holding parts).word = some ⟨piecesOf p.style parts, !p.isLineBlank⟩ := rfl
  have hwidth : (p.holding parts).width = p.width := rfl
  rw [completeWord, hword]
  simp only [hpieces, Bool.not_false, Bool.true_and, hlength, hwidth, hsettle, hcarry]

/-- **A word put together from parts.** On a page where no word is open, in the plain style, a word
put together from parts in a block of its own and the word appended at once lead to pages that are
alike.

**Proof sketch.** The line with the parts on it is as long as the line with the word. So the word is
carried over in the end just when it is put on the next line at once. -/
theorem alike_assembled (hw : p.word = none) (hstyle : p.style = .plain)
    (h : Operation.Assembles ops parts) (hops : ∀ op ∈ ops, op.isStyling = false) :
    (p.performAll (.openWord :: ops ++ [.closeWord])).Alike (p.append parts.flatten) := by
  have hink := h.ink
  rw [performAll_block hw h hops]
  by_cases hne : parts = []
  · subst hne
    rw [completeWord_holding_nil hw]
    exact Alike.refl p
  · have hall : ∀ t ∈ parts, t.isInk = true := fun t ht => (hink t ht).2
    have hflat : parts.flatten ≠ [] := by
      obtain ⟨t, more, rfl⟩ := List.exists_cons_of_ne_nil hne
      simp [(hink t List.mem_cons_self).1]
    rw [completeWord_holding hw hne hall, append_of_isInk hw hflat (Text.isInk_flatten hall)]
    split
    · exact alike_put (p := p.breakLine) rfl hstyle hne hink
    · exact alike_put hw hstyle hne hink

/-- In any style, and whatever changes of style there are, the pages are alike without their
faces. -/
theorem alike_bare_assembled (hw : p.word = none) (h : Operation.Assembles ops parts) :
    (p.performAll (.openWord :: ops ++ [.closeWord])).bare.Alike (p.append parts.flatten).bare := by
  have hword : p.bare.word = none := congrArg (Option.map OpenWord.bare) hw
  have hplain : ∀ op ∈ ops.filter fun op => !op.isStyling, op.isStyling = false := by
    intro op hop
    simpa using (List.mem_filter.mp hop).2
  have hfilter : List.filter (fun op => !op.isStyling) (.openWord :: ops ++ [.closeWord]) =
      .openWord :: ops.filter (fun op => !op.isStyling) ++ [.closeWord] :=
    List.filter_append ..
  rw [bare_performAll, hfilter, bare_append]
  exact alike_assembled hword rfl h.filter hplain

/-! ## Any operations before and after -/

/-- Texts that are free of the escape character are got back without their faces. Erasing takes each
piece back to its characters, as long as those hold no escape character: blanks never do, and ink is
what clean operations appended. -/
theorem eraseControls_text_performAll (width : Int) (h : ∀ op ∈ ops, op.IsClean) :
    Text.eraseControls ((ofWidth width).performAll ops).text =
      ((ofWidth width).performAll ops).bare.text := by
  have hproper : ((ofWidth width).performAll ops).Proper :=
    (becomes_performAll _ h).proper (proper_ofWidth width)
  have hescape : ∀ x ∈ ((ofWidth width).performAll ops).textPieces, '\x1b' ∉ x.text := by
    intro x hx
    by_cases hb : x.isBlank = true
    · exact Text.escape_not_mem_of_isBlank hb
    · have hmem : x ∈ Piece.inked ((ofWidth width).performAll ops).textPieces :=
        List.mem_filter.mpr ⟨List.mem_reverse.mpr hx, by simpa using hb⟩
      rw [inked_textPieces, inked_performAll (proper_ofWidth width) h] at hmem
      exact Operation.escape_not_mem_of_mem_inked h hmem
  rw [text_eq_showLine hproper, Piece.eraseControls_showLine hescape, text_bare hproper]

/-- A word that is put together from clean parts is clean: it has no escape character if none of
them has one. -/
theorem Operation.Assembles.isClean (h : Operation.Assembles ops parts)
    (hops : ∀ op ∈ ops, op.IsClean) : (Operation.append parts.flatten).IsClean := by
  refine ⟨Or.inr (Text.isInk_flatten fun t ht => (h.ink t ht).2), ?_⟩
  intro hmem
  obtain ⟨t, ht, hmem⟩ := List.mem_flatten.mp hmem
  exact (hops _ (h.mem ht)).2 hmem

end

/-- **A word that is kept together behaves like one text.** Take any page that operations lead to,
with no block open and in the plain style. Put a word together on it from parts of ink, in a block
of its own and with blocks in that one at will, or append the word at once. From then on both pages
have lines of the same length, blank or not, and the same indents and margins, whatever is done to
them, and the same text without the faces. If the style was not changed in the block, they have the
same text, with the faces. If it was, then erasing the control sequences leaves the same text,
provided that there is no escape character in what is appended, and no blank among ink.

**Proof sketch.** The pages are alike with their faces taken off, so they stay alike, and without
changes of style in the block they are alike with their faces. -/
theorem performAll_assembled (width : Int) {before block : List Operation} {parts : List Text}
    (hblocks : ((ofWidth width).performAll before).blocks = [])
    (hstyle : ((ofWidth width).performAll before).style = .plain)
    (h : Operation.Assembles block parts) (later : List Operation) :
    let apart := (ofWidth width).performAll
      (before ++ (.openWord :: block ++ [.closeWord]) ++ later)
    let whole := (ofWidth width).performAll (before ++ [.append parts.flatten] ++ later)
    (apart.lineLength = whole.lineLength ∧ apart.isLineBlank = whole.isLineBlank ∧
      apart.indent = whole.indent ∧ apart.storedIndent = whole.storedIndent ∧
      apart.margins = whole.margins ∧ apart.noFill = whole.noFill) ∧
    apart.bare.text = whole.bare.text ∧
    ((∀ op ∈ block, op.isStyling = false) →
      apart.text = whole.text ∧ apart.style = whole.style) ∧
    ((∀ op ∈ before ++ block ++ later, op.IsClean) →
      Text.eraseControls apart.text = Text.eraseControls whole.text) := by
  intro apart whole
  have hw : ((ofWidth width).performAll before).word = none :=
    (owned_performAll width before).word_eq_none hblocks
  have hapart : apart = (((ofWidth width).performAll before).performAll
      (.openWord :: block ++ [.closeWord])).performAll later := by
    change (ofWidth width).performAll _ = _
    rw [performAll_append, performAll_append]
  have hwhole : whole =
      (((ofWidth width).performAll before).append parts.flatten).performAll later := by
    change (ofWidth width).performAll _ = _
    rw [performAll_append, performAll_append]
    rfl
  -- without faces the pages are alike whatever the styles within the block: the pieces of a line
  -- are cut otherwise, and that is all
  have hbare : apart.bare.Alike whole.bare := by
    rw [hapart, hwhole, bare_performAll _ later, bare_performAll _ later]
    exact (alike_bare_assembled hw h).performAll _
  have hsettings := hbare.settings_eq
  refine ⟨⟨hbare.lineLength_eq, hbare.isLineBlank_eq, congrArg Settings.indent hsettings,
    congrArg Settings.storedIndent hsettings, congrArg Settings.margins hsettings,
    congrArg Settings.noFill hsettings⟩, hbare.text_eq, ?_, ?_⟩
  · intro hops
    have halike := (alike_assembled hw hstyle h hops).performAll later
    rw [hapart, hwhole]
    exact ⟨halike.text_eq, congrArg Settings.style halike.settings_eq⟩
  · intro hclean
    have hbefore : ∀ op ∈ before, op.IsClean := fun op hop =>
      hclean op (List.mem_append_left _ (List.mem_append_left _ hop))
    have hblock : ∀ op ∈ block, op.IsClean := fun op hop =>
      hclean op (List.mem_append_left _ (List.mem_append_right _ hop))
    have hlater : ∀ op ∈ later, op.IsClean := fun op hop =>
      hclean op (List.mem_append_right _ hop)
    have happend := h.isClean hblock
    -- a text without its control sequences is the text of the page without its faces
    rw [eraseControls_text_performAll width, eraseControls_text_performAll width, hbare.text_eq]
    · simp only [List.forall_mem_append, List.forall_mem_singleton]
      exact ⟨⟨hbefore, happend⟩, hlater⟩
    · simp only [List.forall_mem_append, List.forall_mem_cons]
      exact ⟨⟨hbefore, ⟨trivial, hblock⟩, trivial, List.forall_mem_nil _⟩, hlater⟩

/-- A word of three parts, the second in italics and in a block of its own, which is carried over,
and another word behind it. -/
theorem performAll_assembled_of_carried_word :
    let before : List Operation := [.pushMargin 2, .append "ab".toList, .appendSpace]
    let block : List Operation :=
      [.append "cd".toList, .openWord, .setStyle .italic true, .append "e".toList, .plainStyle,
        .closeWord, .append "f".toList]
    let later : List Operation := [.appendSpace, .append "gh".toList]
    let apart := (ofWidth 6).performAll (before ++ (.openWord :: block ++ [.closeWord]) ++ later)
    let whole := (ofWidth 6).performAll (before ++ [.append "cdef".toList] ++ later)
    (((ofWidth 6).performAll before).blocks = [] ∧
      ((ofWidth 6).performAll before).style = .plain ∧
      apart.text = "ab\n  cd\x1b[3me\x1b[0mf\n  gh".toList ∧
      whole.text = "ab\n  cdef\n  gh".toList) ∧
    (apart.lineLength = whole.lineLength ∧ apart.isLineBlank = whole.isLineBlank ∧
      apart.indent = whole.indent ∧ apart.storedIndent = whole.storedIndent ∧
      apart.margins = whole.margins ∧ apart.noFill = whole.noFill) ∧
    apart.bare.text = whole.bare.text ∧
    Text.eraseControls apart.text = Text.eraseControls whole.text := by
  intro before block later apart whole
  have hblock : Operation.Assembles block ["cd".toList, "e".toList, "f".toList] :=
    .append (by decide) (by decide)
      (.block (.styling rfl (.append (by decide) (by decide) (.styling rfl .nil)))
        (.append (by decide) (by decide) .nil))
  have hblocks : ((ofWidth 6).performAll before).blocks = [] := by decide
  have hstyle : ((ofWidth 6).performAll before).style = .plain := by decide
  obtain ⟨hlines, hbare, -, herase⟩ := performAll_assembled 6 hblocks hstyle hblock later
  exact ⟨by decide, hlines, hbare, herase (by decide)⟩

end Page

end Manpage

import Manpage.Proofs.Page.Ink

/-!
# Any operations on a page

A page may be driven by anyone, not only by the program of a source: by any operations, in any
order, with blocks that keep words together nested at will, and with lines that end within them.
What such operations put on the page is there, once and in order.

## Main definitions

* `Manpage.Page.Operation` — an operation on a page.
* `Manpage.Page.perform`, `Manpage.Page.performAll` — operations carried out.
* `Manpage.Page.Operation.texts` — the text of ink that an operation appends.
* `Manpage.Page.Operation.IsUniform`, `Manpage.Page.Operation.IsClean` — what may be appended.

## Main results

* `Manpage.Page.becomes_performAll` — what becomes of a page by operations.
* `Manpage.Page.ink_eraseControls_text_performAll` — the ink that was appended is got back from the
  text of the page.
-/

namespace Manpage.Page

/-! ## Operations -/

/-- An operation on a page. -/
inductive Operation where
  | append (t : Text)
  | appendSpace
  | breakLine
  | lineBreak
  | blankLine
  /-- opens a block that keeps a word together -/
  | openWord
  /-- closes the innermost block -/
  | closeWord
  | setStyle (font : Font) (value : Bool)
  | plainStyle
  | setNoFill (value : Bool)
  | setIndent (amount : Int)
  | storeIndent
  | forgetIndent
  | pushMargin (amount : Int)
  /-- closes the innermost margin scope, which fails where none is open -/
  | popMargin
  | clearMargins
  | sectionMargin
deriving DecidableEq

/-- An operation carried out. One that fails leaves the page as it is. -/
def perform (p : Page) : Operation → Page
  | .append t => p.append t
  | .appendSpace => p.appendSpace
  | .breakLine => p.breakLine
  | .lineBreak => p.lineBreak
  | .blankLine => p.blankLine
  | .openWord => p.openWord
  | .closeWord => p.closeWord
  | .setStyle font value => p.setStyle font value
  | .plainStyle => { p with style := .plain }
  | .setNoFill value => { p with noFill := value }
  | .setIndent amount => { p with indent := amount }
  | .storeIndent => p.storeIndent
  | .forgetIndent => { p with storedIndent := none }
  | .pushMargin amount => p.pushMargin amount
  | .popMargin => (p.popMargin?.map Prod.snd).getD p
  | .clearMargins => p.clearMargins
  | .sectionMargin => p.sectionMargin

/-- Operations carried out one after another. -/
def performAll (p : Page) (ops : List Operation) : Page :=
  ops.foldl perform p

namespace Operation

/-- The text that an operation appends, unless it is blank. -/
def texts : Operation → List Text
  | append t => t.visible
  | _ => []

/-- A text that is appended is all blanks or all ink. -/
def IsUniform : Operation → Prop
  | append t => t.isBlank = true ∨ t.isInk = true
  | _ => True

/-- A text that is appended is all blanks or all ink, and free of the escape character. -/
def IsClean : Operation → Prop
  | append t => (t.isBlank = true ∨ t.isInk = true) ∧ '\x1b' ∉ t
  | _ => True

/-- Whether an operation is uniform is a question about the text that it appends. -/
instance : DecidablePred IsUniform := fun op => by
  cases op <;> unfold IsUniform <;> infer_instance

/-- Whether an operation is clean is a question about the text that it appends. -/
instance : DecidablePred IsClean := fun op => by
  cases op <;> unfold IsClean <;> infer_instance

/-- A clean operation is uniform. -/
theorem IsClean.isUniform {op : Operation} (h : op.IsClean) : op.IsUniform := by
  cases op with
  | append t => exact h.1
  | _ => trivial

/-- The ink that an operation appends is free of the escape character. A clean operation appends
such texts only. -/
theorem IsClean.escape_not_mem {op : Operation} (h : op.IsClean) {t : Text} (ht : t ∈ op.texts) :
    '\x1b' ∉ t := by
  cases op with
  | append u =>
    simp only [texts, Text.visible] at ht
    split at ht
    · exact absurd ht List.not_mem_nil
    · obtain rfl := List.mem_singleton.mp ht
      exact h.2
  | _ => exact absurd ht List.not_mem_nil

end Operation

variable {p : Page} {op : Operation} {ops : List Operation}

/-! ## What becomes of a page -/

/-- One operation puts on the page what it appends.

**Proof sketch.** By cases on the operation. Those for style, margins and indents leave the lines
the same, and the others have lemmas of their own. -/
theorem becomes_perform_of_isUniform (p : Page) (h : op.IsUniform) :
    Becomes p op.texts (p.perform op) := by
  cases op with
  | append t => exact becomes_append p h
  | appendSpace => exact becomes_appendSpace p
  | breakLine => exact .breakLine p
  | lineBreak => exact becomes_lineBreak p
  | blankLine => exact becomes_blankLine p
  | openWord => exact becomes_openWord p
  | closeWord => exact becomes_closeWord p
  | popMargin =>
    simp only [perform, popMargin?]
    split
    · exact becomes_refl p
    · exact .sameLines ⟨rfl, rfl, rfl, rfl, rfl⟩
  | setStyle | plainStyle | setNoFill | setIndent | storeIndent | forgetIndent | pushMargin
  | clearMargins | sectionMargin => exact .sameLines ⟨rfl, rfl, rfl, rfl, rfl⟩

/-- What a clean operation does to a page is one of the few things that a page can become, and shows
the text that it appends, if that is ink. -/
theorem becomes_perform (p : Page) (h : op.IsClean) : Becomes p op.texts (p.perform op) :=
  becomes_perform_of_isUniform p h.isUniform

/-- Operations put on the page what they append, in order. -/
theorem becomes_performAll (p : Page) (h : ∀ op ∈ ops, op.IsClean) :
    Becomes p (ops.flatMap Operation.texts) (p.performAll ops) := by
  induction ops generalizing p with
  | nil => exact becomes_refl p
  | cons op ops ih =>
    have hfirst := becomes_perform p (h op List.mem_cons_self)
    exact hfirst.trans (ih (p.perform op) fun o ho => h o (List.mem_cons_of_mem op ho))

/-! ## The text of a page -/

/-- **Nothing is lost, doubled or moved.** Whatever operations are carried out, erasing the control
sequences and the blanks from the text of the page leaves the texts of ink that were appended, one
after another.

**Proof sketch.** The ink on the page are these texts, since every operation comes down to changes
that lose no ink, and the text of the page shows the ink on it. -/
theorem ink_eraseControls_text_performAll (width : Int) (ops : List Operation)
    (h : ∀ op ∈ ops, op.IsClean) :
    (Text.eraseControls ((ofWidth width).performAll ops).text).ink =
      (ops.flatMap Operation.texts).flatten := by
  have hbecomes := becomes_performAll (ofWidth width) h
  have hproper := hbecomes.proper (proper_ofWidth width)
  have hinks := hbecomes.inks_eq (proper_ofWidth width)
  rw [inks_ofWidth, List.nil_append] at hinks
  have hshows := hproper.shows_text
  rw [hinks] at hshows
  refine hshows.ink_eraseControls fun t ht => ⟨?_, ?_⟩
  · exact (hproper.isInk_of_mem_inks (hinks ▸ ht)).1
  · obtain ⟨op, hop, ht⟩ := List.mem_flatMap.mp ht
    exact (h op hop).escape_not_mem ht

/-- A word in two faces that is carried over, with another block within its own, and a line that
ends in the middle of the next word. -/
theorem ink_eraseControls_text_of_carried_word :
    (Text.eraseControls ((ofWidth 6).performAll
      [.pushMargin 2, .append "ab".toList, .appendSpace, .openWord, .append "cd".toList,
        .setStyle .bold true, .openWord, .append "ef".toList, .closeWord, .plainStyle, .closeWord,
        .openWord, .append "gh".toList, .breakLine, .append "ij".toList, .closeWord]).text).ink =
      "abcdefghij".toList :=
  ink_eraseControls_text_performAll 6 _ (by decide)

end Manpage.Page

import Manpage.Proofs.Page.View

/-!
# Texts without their control sequences

A terminal takes a control sequence, from the escape character to the letter at its end, as a
change of face, and shows the rest. What is left of a line when the sequences are erased are the
characters that were put on it.

## Main definitions

* `Manpage.Text.eraseControls` — a text without its control sequences.

## Main results

* `Manpage.Piece.eraseControls_showLine` — erasing undoes the faces of a line.
-/

namespace Manpage

namespace Text

/-- A character between the bracket and the letter of a control sequence. -/
def isParameter (c : Char) : Bool :=
  ('0' ≤ c && c ≤ '9') || c == ';'

/-- What follows the control sequence that a text begins with, if it begins with one: the escape
character, a bracket, digits and semicolons, and the letter `m`. -/
def afterControl? : Text → Option Text
  | '\x1b' :: '[' :: t =>
    match t.dropWhile isParameter with
    | 'm' :: rest => some rest
    | _ => none
  | _ => none

/-- What is left behind a control sequence is shorter than the text, so that erasing the sequences
ends. -/
theorem length_afterControl?_lt {t rest : Text} (h : afterControl? t = some rest) :
    rest.length < t.length := by
  unfold afterControl? at h
  split at h
  · rename_i u
    have hlength := (List.dropWhile_sublist (l := u) isParameter).length_le
    split at h
    · rename_i heq
      obtain rfl := Option.some.inj h
      rw [heq, List.length_cons] at hlength
      simp only [List.length_cons]
      omega
    · exact absurd h (by simp)
  · exact absurd h (by simp)

/-- The text without its control sequences. -/
def eraseControls : Text → Text
  | [] => []
  | c :: t =>
    match _hrest : afterControl? (c :: t) with
    | some rest => eraseControls rest
    | none => c :: eraseControls t
termination_by t => t.length
decreasing_by
  · exact length_afterControl?_lt _hrest
  · simp

variable {t rest : Text}

/-- There is nothing to be erased from the empty text. -/
@[simp] theorem eraseControls_nil : eraseControls [] = [] := by
  rw [eraseControls]

/-- A control sequence at the start of a text is erased with nothing left of it. What stands behind
the sequence is determined by the text. -/
theorem eraseControls_of_control (h : afterControl? t = some rest) :
    eraseControls t = eraseControls rest := by
  cases t with
  | nil => exact absurd h (by simp [afterControl?])
  | cons c t =>
    rw [eraseControls]
    split
    · rename_i rest' h'
      obtain rfl := Option.some.inj (h.symm.trans h')
      rfl
    · rename_i h'
      exact absurd (h.symm.trans h') (by simp)

/-- Any character but the escape character is kept. No control sequence begins with it. -/
theorem eraseControls_cons {c : Char} (hc : c ≠ '\x1b') (t : Text) :
    eraseControls (c :: t) = c :: eraseControls t := by
  have h : afterControl? (c :: t) = none := by
    unfold afterControl?
    split
    · rename_i heq
      exact absurd (List.cons.inj heq).1 hc
    · rfl
  rw [eraseControls]
  split
  · rename_i rest h'
    exact absurd (h.symm.trans h') (by simp)
  · rfl

/-- A text without the escape character is kept. -/
theorem eraseControls_append (h : '\x1b' ∉ t) (u : Text) :
    eraseControls (t ++ u) = t ++ eraseControls u := by
  induction t with
  | nil => rfl
  | cons c t ih =>
    rw [List.mem_cons, not_or] at h
    rw [List.cons_append, eraseControls_cons (Ne.symm h.1), ih h.2, List.cons_append]

end Text

/-- The sequences around a text in a face are erased. One stands before it and one behind, and the
text itself has no escape character. -/
theorem eraseControls_showIn (face : Option Face) {t : Text} (h : '\x1b' ∉ t) (u : Text) :
    Text.eraseControls (showIn face t ++ u) = t ++ Text.eraseControls u := by
  cases face with
  | none => exact Text.eraseControls_append h u
  | some f =>
    have hstart : ∀ v, Text.afterControl? (f.start ++ v) = some v := by
      intro v
      cases f <;> rfl
    have hreset : Text.afterControl? (Face.reset ++ u) = some u := rfl
    simp only [showIn, List.append_assoc]
    rw [Text.eraseControls_of_control (hstart _), Text.eraseControls_append h,
      Text.eraseControls_of_control hreset]

/-- Erasing undoes the faces of a line. By induction on the pieces, in the order in which they are
shown. -/
theorem Piece.eraseControls_showLine {pieces : List Piece} (h : ∀ x ∈ pieces, '\x1b' ∉ x.text) :
    Text.eraseControls (Piece.showLine pieces) = Piece.lineText pieces := by
  have hmem : ∀ x ∈ pieces.reverse, '\x1b' ∉ x.text :=
    fun x hx => h x (List.mem_reverse.mp hx)
  unfold showLine lineText
  generalize pieces.reverse = xs at hmem ⊢
  induction xs with
  | nil => exact Text.eraseControls_nil
  | cons x xs ih =>
    rw [List.flatMap_cons, List.flatMap_cons, shown,
      eraseControls_showIn x.face (hmem x List.mem_cons_self),
      ih fun y hy => hmem y (List.mem_cons_of_mem x hy)]

end Manpage

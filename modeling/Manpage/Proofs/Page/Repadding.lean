import Manpage.Proofs.Page.Galley

/-!
# Breaks on a blank line

A request for a break or an empty line on a line that is already blank only pads that line anew. So
it does not matter how often breaks are asked for, nor when margins and indents change in between:
one break at the end, after all changes, gives the same page.

Pages and galleys do this for the same reason, which is stated once, as laws about breaks and
changes of settings.

## Main definitions

* `Manpage.Page.Operation.isPause` — a break or an empty line where the line is not yet blank.
* `Manpage.Page.Operation.isShift` — a change of margins or indents.
* `Manpage.Page.Restarts` — the laws of what starts a blank line again.
* `Manpage.Galley.finishedParts` — the parts before the current line.

## Main results

* `Manpage.Page.Restarts.foldl_pauses` — pauses and shifts come to the shifts and one break.
* `Manpage.Page.restarts`, `Manpage.Galley.restarts` — pages and galleys obey the laws.
* `Manpage.Page.repadding` — breaks on pages and galleys.
-/

namespace Manpage

namespace Page

/-! ## Pauses and shifts -/

namespace Operation

/-- A break or an empty line, unless the line is blank. -/
def isPause : Operation → Bool
  | lineBreak | blankLine => true
  | _ => false

/-- A change of margins or indents. -/
def isShift : Operation → Bool
  | setIndent _ | storeIndent | forgetIndent | pushMargin _ | popMargin | clearMargins
  | sectionMargin => true
  | _ => false

/-- A pause is no shift. -/
theorem isShift_of_isPause {op : Operation} (h : op.isPause = true) : op.isShift = false := by
  cases op with
  | lineBreak | blankLine => rfl
  | _ => exact Bool.noConfusion h

end Operation

/-- The laws of a state where a pause on a blank line starts that line again. A line that is started
again is blank, and what is kept before it stays. A shift changes none of that, and whether the line
was started again before a shift makes no difference after it. -/
structure Restarts {α β : Type} (perform : α → Operation → α) (restart : α → α) (blank : α → Bool)
    (kept : α → β) : Prop where
  perform_pause : ∀ s op, op.isPause = true → blank s = true → perform s op = restart s
  blank_restart : ∀ s, blank (restart s) = true
  kept_restart : ∀ s, kept (restart s) = kept s
  restart_restart : ∀ s, restart (restart s) = restart s
  blank_shift : ∀ s op, op.isShift = true → blank (perform s op) = blank s
  kept_shift : ∀ s op, op.isShift = true → kept (perform s op) = kept s
  restart_shift : ∀ s op, op.isShift = true →
    restart (perform (restart s) op) = restart (perform s op)

namespace Restarts

variable {α β : Type} {perform : α → Operation → α} {restart : α → α} {blank : α → Bool}
  {kept : α → β} {s : α} {last : Operation} {ops : List Operation}

/-- A line that is started again is the same, whatever stood on it before the shifts. By induction
on the shifts: each of them can be made before a restart or behind it. -/
theorem restart_shifts (laws : Restarts perform restart blank kept) (s : α)
    (h : ∀ op ∈ ops, op.isShift = true) :
    restart (ops.foldl perform (restart s)) = restart (ops.foldl perform s) := by
  induction ops generalizing s with
  | nil => exact laws.restart_restart s
  | cons op ops ih =>
    obtain ⟨hop, hops⟩ := List.forall_mem_cons.mp h
    rw [List.foldl_cons, List.foldl_cons, ← ih (perform (restart s) op) hops,
      laws.restart_shift s op hop, ih (perform s op) hops]

/-- **What pauses and shifts leave of a blank line**: it stays blank, what is kept stays, and when
it is started again it is the line of the shifts alone.

**Proof sketch.** By induction on the operations. A pause starts the line again, which the start of
the line at the end makes good; a shift is one of the shifts. -/
theorem foldl_of_blank (laws : Restarts perform restart blank kept) (hblank : blank s = true)
    (h : ∀ op ∈ ops, op.isPause = true ∨ op.isShift = true) :
    blank (ops.foldl perform s) = true ∧ kept (ops.foldl perform s) = kept s ∧
      restart (ops.foldl perform s) =
        restart ((ops.filter Operation.isShift).foldl perform s) := by
  induction ops generalizing s with
  | nil => exact ⟨hblank, rfl, rfl⟩
  | cons op ops ih =>
    obtain ⟨hop, hops⟩ := List.forall_mem_cons.mp h
    rw [List.foldl_cons]
    rcases hop with hpause | hshift
    · have hshifts : ∀ o ∈ ops.filter Operation.isShift, o.isShift = true :=
        fun o ho => (List.mem_filter.mp ho).2
      rw [laws.perform_pause s op hpause hblank,
        List.filter_cons_of_neg (by simp [Operation.isShift_of_isPause hpause])]
      obtain ⟨hb, hk, hs⟩ := ih (laws.blank_restart s) hops
      exact ⟨hb, hk.trans (laws.kept_restart s), hs.trans (laws.restart_shifts s hshifts)⟩
    · rw [List.filter_cons_of_pos hshift, List.foldl_cons]
      obtain ⟨hb, hk, hs⟩ := ih ((laws.blank_shift s op hshift).trans hblank) hops
      exact ⟨hb, hk.trans (laws.kept_shift s op hshift), hs⟩

/-- **Pauses and shifts on a blank line** that end in a pause come to the shifts and one break. The
pauses restart the line, and what they restart is restarted once more by the last of them. -/
theorem foldl_pauses (laws : Restarts perform restart blank kept) (hblank : blank s = true)
    (h : ∀ op ∈ ops, op.isPause = true ∨ op.isShift = true) (hlast : last.isPause = true) :
    (ops ++ [last]).foldl perform s =
        perform ((ops.filter Operation.isShift).foldl perform s) .lineBreak ∧
      (ops ++ [last]).foldl perform s =
        restart ((ops.filter Operation.isShift).foldl perform s) ∧
      kept ((ops.filter Operation.isShift).foldl perform s) = kept s := by
  have hshifts : ∀ op ∈ ops.filter Operation.isShift, op.isPause = true ∨ op.isShift = true :=
    fun o ho => Or.inr (List.mem_filter.mp ho).2
  obtain ⟨hb, -, hs⟩ := laws.foldl_of_blank hblank h
  obtain ⟨hb', hk', -⟩ := laws.foldl_of_blank hblank hshifts
  have hall : (ops ++ [last]).foldl perform s =
      restart ((ops.filter Operation.isShift).foldl perform s) := by
    rw [List.foldl_concat, laws.perform_pause _ last hlast hb, hs]
  exact ⟨hall.trans (laws.perform_pause _ .lineBreak rfl hb').symm, hall, hk'⟩

end Restarts

/-! ## Pages -/

variable {p : Page} {op : Operation}

/-- A page with other settings. -/
def withSettings (p : Page) (st : Settings) : Page :=
  { p with
    style := st.style
    noFill := st.noFill
    indent := st.indent
    storedIndent := st.storedIndent
    margins := st.margins }

/-- A shift changes settings only. -/
theorem perform_of_isShift (p : Page) (h : op.isShift = true) :
    p.perform op = p.withSettings (p.settings.perform op) := by
  cases op with
  | popMargin =>
    rcases p with ⟨width, style, noFill, indent, storedIndent, margins⟩
    cases margins <;> rfl
  | setIndent | storeIndent | forgetIndent | pushMargin | clearMargins | sectionMargin => rfl
  | _ => exact Bool.noConfusion h

/-- Pauses start the current line of a page again, and keep its finished lines. -/
theorem restarts : Restarts perform startLine isLineBlank finished where
  perform_pause p op h hblank := by
    cases op with
    | lineBreak | blankLine => exact if_pos hblank
    | _ => exact Bool.noConfusion h
  blank_restart p := rfl
  kept_restart p := rfl
  restart_restart p := rfl
  blank_shift p op h := by rw [perform_of_isShift p h]; rfl
  kept_shift p op h := by rw [perform_of_isShift p h]; rfl
  restart_shift p op h := by rw [perform_of_isShift _ h, perform_of_isShift _ h]; rfl

/-- The padding of a line is what margin and indent ask for, as far as it fits. -/
theorem padding_eq_min (p : Page) :
    (p.padding : Int) = min (max 0 (p.margin + p.indent)) p.width := by
  unfold padding
  omega

/-- After any break, the line is blank and holds its padding. Each kind of break ends in a fresh
line, which has the padding only. -/
theorem blank_of_break (p : Page) (hop : op ∈ [Operation.breakLine, .lineBreak, .blankLine]) :
    (p.perform op).isLineBlank = true ∧ (p.perform op).lineLength = p.padding := by
  have hstart : ∀ q : Page, q.startLine.isLineBlank = true ∧ q.startLine.lineLength = q.padding :=
    fun q => ⟨rfl, rfl⟩
  simp only [List.mem_cons, List.not_mem_nil, or_false] at hop
  rcases hop with rfl | rfl | rfl
  · exact hstart _
  · change p.lineBreak.isLineBlank = true ∧ p.lineBreak.lineLength = p.padding
    unfold lineBreak
    split
    · exact hstart _
    · exact hstart _
  · change p.blankLine.isLineBlank = true ∧ p.blankLine.lineLength = p.padding
    unfold blankLine
    split
    · exact hstart _
    · exact hstart _

end Page

/-! ## Galleys -/

namespace Galley

open Page (Operation Restarts)

variable {op : Operation}

/-- The parts before the current line. -/
def finishedParts (g : Galley) : List Text :=
  g.parts.take g.lineStart

/-- The current line started again: padding, behind the parts before it. -/
theorem repad_eq (g : Galley) :
    g.repad =
      { g with
        parts := g.finishedParts ++ List.replicate (g.settings.padding g.width) [' ']
        lineStart := g.finishedParts.length
        extent := ⟨g.settings.padding g.width, 0⟩
        word := none } :=
  startLine_eq _

/-- Padding a galley anew leaves its finished parts as they are. -/
theorem finishedParts_repad (g : Galley) : g.repad.finishedParts = g.finishedParts := by
  rw [repad_eq, finishedParts]
  exact List.take_left

/-- A shift changes the settings of a galley and nothing else. -/
theorem perform_of_isShift (g : Galley) (h : op.isShift = true) :
    g.perform op = { g with settings := g.settings.perform op } := by
  cases op with
  | setIndent | storeIndent | forgetIndent | pushMargin | popMargin | clearMargins
  | sectionMargin => rfl
  | _ => exact Bool.noConfusion h

/-- Only the settings, the width and what stands before the line tell how it is started again. -/
theorem repad_withSettings_repad (g : Galley) (st : Page.Settings) :
    repad { g.repad with settings := st } = repad { g with settings := st } := by
  have hparts : finishedParts { g.repad with settings := st } = g.finishedParts :=
    finishedParts_repad g
  rw [repad_eq, repad_eq { g with settings := st }, hparts, repad_eq g]
  rfl

/-- Pauses start the current line of a galley again, and keep the parts before it. -/
theorem restarts : Restarts perform repad isLineBlank finishedParts where
  perform_pause g op h hblank := by
    cases op with
    | lineBreak | blankLine => exact if_pos hblank
    | _ => exact Bool.noConfusion h
  blank_restart g := by rw [repad_eq]; rfl
  kept_restart := finishedParts_repad
  restart_restart g := by rw [repad_eq g.repad, finishedParts_repad, repad_eq g]
  blank_shift g op h := by rw [perform_of_isShift g h]; rfl
  kept_shift g op h := by rw [perform_of_isShift g h]; rfl
  restart_shift g op h := by
    have hsettings : g.repad.settings = g.settings := by rw [repad_eq]
    rw [perform_of_isShift _ h, perform_of_isShift _ h, hsettings, repad_withSettings_repad]

/-- The padding is the margin with the indent, but not less than nothing and not more than the
width. -/
theorem padding_eq_min (g : Galley) :
    (g.settings.padding g.width : Int) = min (max 0 (g.margin + g.settings.indent)) g.width := by
  unfold Page.Settings.padding margin
  omega

/-- A fresh line is blank and as long as its padding. -/
theorem blank_startLine (g : Galley) :
    g.startLine.isLineBlank = true ∧ g.startLine.lineLength = g.settings.padding g.width := by
  rw [startLine_eq]
  exact ⟨rfl, rfl⟩

/-- After any break, the line is blank and holds its padding. Each kind of break ends in a fresh
line. An empty line may come of two breaks, but the first changes neither the settings nor the
width. -/
theorem blank_of_break (g : Galley) (hop : op ∈ [Operation.breakLine, .lineBreak, .blankLine]) :
    (g.perform op).isLineBlank = true ∧
      (g.perform op).lineLength = g.settings.padding g.width := by
  simp only [List.mem_cons, List.not_mem_nil, or_false] at hop
  rcases hop with rfl | rfl | rfl
  · exact blank_startLine _
  · change g.lineBreak.isLineBlank = true ∧ g.lineBreak.lineLength = g.settings.padding g.width
    unfold lineBreak
    split
    · exact blank_startLine _
    · exact blank_startLine _
  · change g.blankLine.isLineBlank = true ∧ g.blankLine.lineLength = g.settings.padding g.width
    unfold blankLine
    split
    · exact blank_startLine _
    · have hbreak : g.breakLine.settings = g.settings ∧ g.breakLine.width = g.width := by
        rw [breakLine, startLine_eq]
        exact ⟨rfl, rfl⟩
      rw [← hbreak.1, ← hbreak.2]
      exact blank_startLine { g.breakLine with parts := g.breakLine.trimmed ++ [['\n']] }

end Galley

namespace Page

/-- **Breaks on a blank line only pad it anew**, on any page and on any galley:

* after a break of any kind the line is blank, and as long as margin and indent ask for, but no
  longer than lines may be;
* if the line is blank, then pauses and changes of margins and indents, with a pause at the end,
  lead to where the changes and one break lead;
* and then the finished lines are what they were, and there is no line feed more.

**Proof sketch.** A blank line is started again by every pause, and what it is started with depends
on the settings alone, which only the changes of margins and indents touch. -/
theorem repadding (p : Page) (g : Galley) :
    (∀ op ∈ [Operation.breakLine, .lineBreak, .blankLine],
      ((p.perform op).isLineBlank = true ∧
        ((p.perform op).lineLength : Int) = min (max 0 (p.margin + p.indent)) p.width) ∧
      ((g.perform op).isLineBlank = true ∧
        ((g.perform op).lineLength : Int) = min (max 0 (g.margin + g.settings.indent)) g.width)) ∧
    ∀ ops last, (∀ op ∈ ops, op.isPause = true ∨ op.isShift = true) → last.isPause = true →
      (p.isLineBlank = true →
        p.performAll (ops ++ [last]) = (p.performAll (ops.filter Operation.isShift)).lineBreak ∧
          (p.performAll (ops ++ [last])).finished = p.finished) ∧
      (g.isLineBlank = true →
        g.performAll (ops ++ [last]) = (g.performAll (ops.filter Operation.isShift)).lineBreak ∧
          (g.performAll (ops ++ [last])).lineStart = g.finishedParts.length ∧
          ∃ n, (g.performAll (ops ++ [last])).parts =
            g.finishedParts ++ List.replicate n [' ']) := by
  refine ⟨fun op hop => ?_, fun ops last hops hlast => ⟨fun hblank => ?_, fun hblank => ?_⟩⟩
  · obtain ⟨hb, hlength⟩ := blank_of_break p hop
    obtain ⟨hb', hlength'⟩ := g.blank_of_break hop
    rw [hlength, hlength', padding_eq_min, Galley.padding_eq_min]
    exact ⟨⟨hb, rfl⟩, hb', rfl⟩
  · obtain ⟨hbreak, hall, hkept⟩ := restarts.foldl_pauses hblank hops hlast
    refine ⟨hbreak, ?_⟩
    rw [performAll, hall]
    exact hkept
  · obtain ⟨hbreak, hall, hkept⟩ := Galley.restarts.foldl_pauses hblank hops hlast
    refine ⟨hbreak, ?_⟩
    rw [Galley.performAll, hall, Galley.repad_eq, hkept]
    exact ⟨rfl, _, rfl⟩

/-- Two breaks on a blank line with changes of margin and indent between them, within a block. -/
theorem repadding_of_two_breaks :
    let before : List Operation := [.append "ab".toList, .lineBreak, .openWord]
    let ops : List Operation := [.lineBreak, .pushMargin 3, .setIndent (-1)]
    let p := (ofWidth 4).performAll before
    let g := (Galley.ofWidth 4).performAll before
    (∀ op ∈ ops, op.isPause = true ∨ op.isShift = true) ∧ Operation.blankLine.isPause = true ∧
      (p.isLineBlank = true ∧
        p.performAll (ops ++ [.blankLine]) =
          (p.performAll [.pushMargin 3, .setIndent (-1)]).lineBreak ∧
        (p.performAll (ops ++ [.blankLine])).lineLength = 2) ∧
      g.isLineBlank = true ∧
        g.performAll (ops ++ [.blankLine]) =
          (g.performAll [.pushMargin 3, .setIndent (-1)]).lineBreak := by
  intro before ops p g
  have hops : ∀ op ∈ ops, op.isPause = true ∨ op.isShift = true := by decide
  have hlast : Operation.blankLine.isPause = true := rfl
  have hp : p.isLineBlank = true := by decide
  have hg : g.isLineBlank = true := by decide
  obtain ⟨hpage, hgalley⟩ := (repadding p g).2 ops .blankLine hops hlast
  exact ⟨hops, hlast, ⟨hp, (hpage hp).1, by decide⟩, hg, (hgalley hg).1⟩

end Page

end Manpage

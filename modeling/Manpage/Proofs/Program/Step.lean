import Manpage.Proofs.Program.Stack

/-!
# Steps that keep the order

A token that begins something new is taken with a step: instructions, and the frames that they
leave. Each such step leaves frames that wait for what may come, and keeps to the phases of words.

## Main definitions

* `Manpage.Step.Fits` — a step outside of words.
* `Manpage.Step.FitsInner` — a step that may be taken in a word.

## Main results

* `Manpage.Step.word_fitsInner`, `Manpage.Step.line_fits`, `Manpage.Step.call_fits`,
  `Manpage.Step.command_fitsInner`, `Manpage.Step.top_fits` — the steps of words, lines, macros and
  escapes, and of the empty stack.
-/

namespace Manpage

variable {tokens : List Token} {q : Stage} {t : Token} {f : Frame}

namespace Step

/-- A step that leaves frames which wait for what may come, and keeps to the phases of words. -/
structure Fits (tokens : List Token) (φ : WordPhase) (q : Stage) (st : Step) : Prop where
  ready : Ready tokens q st.frames
  carries : Carries tokens φ st.out (phaseOf st.frames)

/-- A step that may be taken in a word: it leaves frames of an escape at most, and the phase. -/
structure FitsInner (tokens : List Token) (φ : WordPhase) (q : Stage) (st : Step) : Prop where
  ready : Ready tokens q st.frames
  inner : ∀ f ∈ st.frames, f.isInner = true
  carries : Carries tokens φ st.out φ

variable {φ ψ : WordPhase} {st : Step} {i : Instr} {isolating : Bool}

/-- A step within an escape keeps the order outside of words too. -/
theorem FitsInner.fits (h : st.FitsInner tokens .outside q) : st.Fits tokens .outside q := by
  refine ⟨h.ready, ?_⟩
  rw [phaseOf_of_not_mem fun hmem => Bool.noConfusion (h.inner .unit hmem)]
  exact h.carries

/-- A step in a word, above the frame of the word. -/
theorem FitsInner.above_unit (h : st.FitsInner tokens .inside q) :
    (st.above .unit).Fits tokens .inside q := by
  refine ⟨h.ready.append ⟨rfl, trivial, Or.inr List.not_mem_nil, trivial⟩ (Or.inr h.inner), ?_⟩
  show Carries tokens .inside st.out (phaseOf (st.frames ++ [.unit]))
  rw [phaseOf_of_mem (List.mem_append_right _ List.mem_cons_self)]
  exact h.carries

/-- A step above another frame that waits for something new. The frame is that of no word, so the
phase is the one from before. -/
theorem Fits.above (h : st.Fits tokens φ q) (hf : f.awaits .between) (hs : f.IsSound tokens)
    (hne : f ≠ .unit) : (st.above f).Fits tokens φ q := by
  have hunit : Frame.unit ∉ [f] := fun hmem => hne (List.mem_singleton.mp hmem).symm
  refine ⟨h.ready.append ⟨hf, hs, Or.inr List.not_mem_nil, trivial⟩ (Or.inl hunit), ?_⟩
  have hphase : phaseOf (st.frames ++ [f]) = phaseOf st.frames := by
    unfold phaseOf
    simp only [List.mem_append, hunit, or_false]
  show Carries tokens φ st.out (phaseOf (st.frames ++ [f]))
  rw [hphase]
  exact h.carries

/-- A step behind a sound instruction keeps the order from the phase before that on. -/
theorem Fits.preceded (h : st.Fits tokens ψ q) (hi : φ.next i = some ψ) (hs : i.IsSound tokens) :
    (st.preceded i).Fits tokens φ q :=
  ⟨h.ready, Carries.cons hi hs h.carries⟩

/-! ## Taking a token -/

/-- The token of a word that is not part of an escape already begun: a text that is shown, or a
backslash that opens an escape. -/
theorem word_fitsInner (ht : t ∈ tokens) (hφ : φ ≠ .spaced) (hnext : Stage.fresh t = some q)
    (hk : t.kind = .word ∨ t.kind = .quote ∨ t.kind = .backslash) :
    (word isolating t).FitsInner tokens φ q := by
  have hshown : ∀ i ∈ [Instr.consume t, .emit t.value], (t.kind = .word ∨ t.kind = .quote) →
      i.IsSound tokens ∧ (i.isQuiet = true ∨ i.isEmit = true) := by
    intro i hi hk
    simp only [List.mem_cons, List.not_mem_nil, or_false] at hi
    rcases hi with rfl | rfl
    · exact ⟨ht, Or.inl rfl⟩
    · exact ⟨Or.inl ⟨t, ht, hk, rfl⟩, Or.inr rfl⟩
  rcases hk with hk | hk | hk
  · obtain rfl : q = .between := by simpa [Stage.fresh, hk, eq_comm] using hnext
    simp only [word, hk]
    exact ⟨rfl, by simp, Carries.shown hφ fun i hi => hshown i hi (Or.inl hk)⟩
  · obtain rfl : q = .between := by simpa [Stage.fresh, hk, eq_comm] using hnext
    simp only [word, hk]
    exact ⟨rfl, by simp, Carries.shown hφ fun i hi => hshown i hi (Or.inr hk)⟩
  · obtain rfl : q = .command := by simpa [Stage.fresh, hk, eq_comm] using hnext
    simp only [word, hk]
    refine ⟨⟨rfl, trivial, Or.inl rfl, trivial⟩, by simp [Frame.isInner], ?_⟩
    exact Carries.quiet φ (by simp [Instr.IsSound, ht, Instr.isQuiet])

/-- A blank on a line of text. -/
theorem word_fits_of_blank (ht : t ∈ tokens) (hk : t.kind = .blank)
    (hnext : Stage.fresh t = some q) : (word isolating t).Fits tokens .outside q := by
  obtain rfl : q = .between := by simpa [Stage.fresh, hk, eq_comm] using hnext
  simp only [word, hk]
  refine ⟨rfl, Carries.outside ?_⟩
  simp only [List.mem_cons, List.not_mem_nil, or_false, forall_eq_or_imp, forall_eq]
  exact ⟨⟨ht, by simp⟩, ⟨t, ht, hk, rfl⟩, by simp⟩

/-- A token that begins a unit keeps the order. -/
theorem unit_fits (ht : t ∈ tokens) (hnext : Stage.fresh t = some q)
    (hk : t.kind = .word ∨ t.kind = .quote ∨ t.kind = .backslash) :
    (unit isolating t).Fits tokens .outside q :=
  (word_fitsInner ht (by decide) hnext hk).above_unit.preceded rfl trivial

/-- A token that begins a blank or a unit. A macro and an empty line are not among them. -/
theorem run_fits (ht : t ∈ tokens) (hnext : Stage.fresh t = some q)
    (hname : t.kind ≠ .macroName) (hempty : t.kind ≠ .emptyLine) :
    (run isolating t).Fits tokens .outside q := by
  unfold run
  split
  · rename_i hk
    exact word_fits_of_blank ht hk hnext
  · rename_i hk
    refine unit_fits ht hnext ?_
    cases h : t.kind <;> simp_all [Stage.fresh]

/-- A token on a line of text keeps the order. -/
theorem line_fits (ht : t ∈ tokens) (hnext : Stage.fresh t = some q)
    (hname : t.kind ≠ .macroName) (hempty : t.kind ≠ .emptyLine) :
    (line isolating t).Fits tokens .outside q :=
  (run_fits ht hnext hname hempty).above rfl trivial (by decide)

/-- The first token of an argument that is shown. A quote opens an argument in quotes, anything else
a unit. -/
theorem argument_fits (ht : t ∈ tokens) (hnext : Stage.fresh t = some q)
    (hk : t.kind = .word ∨ t.kind = .quote ∨ t.kind = .backslash) :
    (argument isolating t).Fits tokens .outside q := by
  unfold argument
  split
  · rename_i hquote
    obtain rfl : q = .between := by simpa [Stage.fresh, hquote, eq_comm] using hnext
    refine ⟨⟨rfl, trivial, Or.inr List.not_mem_nil, trivial⟩, Carries.outside ?_⟩
    simp [Instr.IsSound, ht]
  · exact unit_fits ht hnext hk

/-- A token among arguments keeps the order. The frame of the arguments stays below that of the
argument, and a space comes before all but the first. -/
theorem arguments_fits (first : Bool) (ht : t ∈ tokens) (hnext : Stage.fresh t = some q)
    (hk : t.kind = .word ∨ t.kind = .quote ∨ t.kind = .backslash) :
    (arguments isolating first t).Fits tokens .outside q := by
  have hargument : (argument isolating t).Fits tokens .outside q := argument_fits ht hnext hk
  have h := hargument.above (f := .arguments false) rfl trivial (by decide)
  unfold arguments
  cases first with
  | true => exact h
  | false => exact h.preceded rfl trivial

/-- A token that begins an argument in a font keeps the order. -/
theorem inFont_fits (font other : Font) (ht : t ∈ tokens) (hnext : Stage.fresh t = some q)
    (hk : t.kind = .word ∨ t.kind = .quote ∨ t.kind = .backslash) :
    (inFont isolating font other t).Fits tokens .outside q := by
  have hargument : (argument isolating t).Fits tokens .outside q := argument_fits ht hnext hk
  have h := hargument.above (f := .afterwards [.closeScope]) rfl
    (by simp [Frame.IsSound, Instr.IsSound]) (by decide)
  exact (h.above (f := .alternating false other font) rfl trivial (by simp)).preceded rfl trivial

/-- A step that begins no word. -/
theorem fits_of_not_mem {out : List Instr} {frames : List Frame} (hready : Ready tokens q frames)
    (hunit : Frame.unit ∉ frames) (hout : ∀ i ∈ out, i.IsSound tokens ∧ i ≠ .openWord) :
    Step.Fits tokens .outside q ⟨out, frames⟩ := by
  refine ⟨hready, ?_⟩
  rw [phaseOf_of_not_mem hunit]
  exact Carries.outside hout

/-- The call of a macro. By cases on the macro: its frames have the macro as their caller, and none
of them is that of a word. -/
theorem call_fits (ht : t ∈ tokens) (hk : t.kind = .macroName) :
    (call isolating t).Fits tokens .outside .between := by
  have hcaller : ∀ p, (p = .closeMargin → Macro.ofName? t.value = some .closeMargin) →
      IsCaller tokens p t := fun p hp => ⟨ht, hk, hp⟩
  unfold call
  split
  case h_2 => split <;> apply fits_of_not_mem <;>
    simp [Ready, Settled, Frame.awaits, Frame.IsSound, Instr.IsSound, hcaller, ht]
  case h_15 hclose => apply fits_of_not_mem <;>
    simp [Ready, Settled, Frame.awaits, Frame.IsSound, Instr.IsSound, hcaller, ht, hclose]
  all_goals
    apply fits_of_not_mem <;>
      simp [Ready, Settled, Frame.awaits, Frame.IsSound, Instr.IsSound, hcaller, ht, hk]

/-- The command of an escape leaves the frame for its argument, if it takes one, at the stage that
waits for it.

**Proof sketch.** By cases on what the command stands for. A character that it stands for itself is
shown in the word; one that is not known brings a warning. -/
theorem command_fitsInner (ht : t ∈ tokens) (hφ : φ ≠ .spaced) (hk : t.kind = .command) :
    (command t).FitsInner tokens φ (Stage.ofEscape (Escape.ofCommand t.value)) := by
  have hcommand : IsCommand tokens t := ⟨ht, hk⟩
  have hconsume : Carries tokens φ [.consume t] φ :=
    Carries.quiet φ (by simp [Instr.IsSound, ht, Instr.isQuiet])
  have hliteral : ∀ text, Escape.ofCommand t.value = .literal text → IsShown tokens text := by
    intro text h
    right
    unfold Escape.ofCommand at h
    split at h <;> simp_all
  unfold command
  cases he : Escape.ofCommand t.value with
  | font =>
    exact ⟨⟨rfl, hcommand, Or.inl rfl, rfl, trivial, Or.inl rfl, trivial⟩,
      by simp [Frame.isInner], hconsume⟩
  | ignored => exact ⟨⟨rfl, trivial, Or.inl rfl, trivial⟩, by simp [Frame.isInner], hconsume⟩
  | string => exact ⟨⟨rfl, hcommand, Or.inl rfl, trivial⟩, by simp [Frame.isInner], hconsume⟩
  | special => exact ⟨⟨rfl, hcommand, Or.inl rfl, trivial⟩, by simp [Frame.isInner], hconsume⟩
  | literal text =>
    refine ⟨rfl, by simp, Carries.shown hφ ?_⟩
    simp [Instr.IsSound, ht, hliteral text he, Instr.isQuiet, Instr.isEmit]
  | comment =>
    exact ⟨⟨trivial, by simp [Frame.IsSound], Or.inl rfl, trivial⟩, by simp [Frame.isInner],
      hconsume⟩
  | unsupported =>
    refine ⟨rfl, by simp, Carries.quiet φ ?_⟩
    simp [Instr.IsSound, ht, hk, Instr.isQuiet]

/-- A token at the empty stack fits: a macro is called, an empty line is one, and any other token
begins a line of text. -/
theorem top_fits (ht : t ∈ tokens) (hnext : Stage.fresh t = some q) :
    (top isolating t).Fits tokens .outside q := by
  -- the beginning of the line makes no difference to what the token does
  have hbegin : ∀ st : Step, st.Fits tokens .outside q →
      (if t.startsLine then st.preceded .beginLine else st).Fits tokens .outside q := by
    intro st hst
    split
    · exact hst.preceded rfl trivial
    · exact hst
  refine hbegin _ ?_
  split
  · rename_i hk
    obtain rfl : q = .between := by
      simp only [Stage.fresh, hk, Option.ite_none_right_eq_some, Option.some.injEq] at hnext
      exact hnext.2.symm
    exact call_fits ht hk
  · rename_i hk
    obtain rfl : q = .between := by
      simp only [Stage.fresh, hk, Option.ite_none_right_eq_some, Option.some.injEq] at hnext
      exact hnext.2.symm
    exact fits_of_not_mem rfl List.not_mem_nil (by simp [Instr.IsSound, ht])
  · rename_i hname hempty
    exact line_fits ht hnext hname hempty

end Step

end Manpage

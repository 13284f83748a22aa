import Manpage.Proofs.Program.Reaction

/-!
# Reading tokens in order

Tokens that come in order are read without a fault but that of a number: a stack of frames that
fits the stage of the escape still does so after the next token, and the instructions are sound and
keep to the phases of words.

## Main definitions

* `Manpage.Meets` — the phase in which a token comes to a stack.
* `Manpage.feedAll` — several tokens read with a stack of frames.

## Main results

* `Manpage.feed_fits`, `Manpage.feedAll_fits` — one token, and several.
* `Manpage.finish_carries` — the end of the tokens.
* `Manpage.program_carries_of_after`, `Manpage.program_carries` — the program of tokens that come in
  order is sound and keeps to the phases of words, and so is that of a source.
-/

namespace Manpage

variable {tokens : List Token} {s q : Stage} {t : Token} {ts us : List Token} {f : Frame}
  {below stack : List Frame} {φ ψ : WordPhase} {isolating : Bool}

/-! ## One token -/

/-- The phase in which a token comes to a stack: that of the stack, or that of a word with a space
at its end, where the token starts a line. -/
def Meets (φ : WordPhase) (stack : List Frame) (t : Token) : Prop :=
  φ = phaseOf stack ∨ (φ = .spaced ∧ Frame.unit ∈ stack ∧ t.startsLine = true)

/-- Only a unit has to do with the phase of words: other frames may be left out. -/
theorem phaseOf_cons (hf : f ≠ .unit) : phaseOf (f :: below) = phaseOf below := by
  unfold phaseOf
  simp only [List.mem_cons, hf.symm, false_or]

/-- Above frames without a unit, the phase follows from the frames that are added. -/
theorem phaseOf_append_of_not_mem {fs : List Frame} (h : Frame.unit ∉ below) :
    phaseOf (fs ++ below) = phaseOf fs := by
  unfold phaseOf
  simp only [List.mem_append, h, or_false]

/-- The frames of an escape have nothing to do with the phase of words. -/
theorem phaseOf_append_of_inner {fs : List Frame} (h : ∀ f ∈ fs, f.isInner = true) :
    phaseOf (fs ++ below) = phaseOf below := by
  have hunit : Frame.unit ∉ fs := fun hmem => Bool.noConfusion (h .unit hmem)
  unfold phaseOf
  simp only [List.mem_append, hunit, false_or]

/-- Where no unit is open, the phase is the one outside of words. -/
theorem Meets.eq_outside (h : Meets φ stack t) (hu : Frame.unit ∉ stack) : φ = .outside := by
  rcases h with rfl | ⟨-, hmem, -⟩
  · exact phaseOf_of_not_mem hu
  · exact absurd hmem hu

/-- Below a frame that is no unit, the phase is the same. -/
theorem Meets.of_cons (h : Meets φ (f :: below) t) (hf : f ≠ .unit) : Meets φ below t := by
  rcases h with rfl | ⟨rfl, hmem, hl⟩
  · exact Or.inl (phaseOf_cons hf)
  · exact Or.inr ⟨rfl, (List.mem_cons.mp hmem).resolve_left hf.symm, hl⟩

/-- A step above a settled stack, outside of words. -/
theorem Step.Fits.over {st : Step} (h : st.Fits tokens φ q) (hbelow : Settled tokens below)
    (hu : Frame.unit ∉ below) : Step.Fits tokens φ q ⟨st.out, st.frames ++ below⟩ := by
  refine ⟨h.ready.append hbelow (Or.inl hu), ?_⟩
  rw [phaseOf_append_of_not_mem hu]
  exact h.carries

/-- A word can be closed, also behind a space at its end. -/
theorem next_closeScope (hφ : φ = .inside ∨ φ = .spaced) :
    φ.next .closeScope = some .outside := by
  rcases hφ with rfl | rfl
  · rfl
  · rfl

/-- A space can end a word, also behind another. -/
theorem next_space (hu : Frame.unit ∈ below) (hφ : φ = phaseOf below ∨ φ = .spaced) :
    φ.next .space = some .spaced := by
  rcases hφ with rfl | rfl
  · rw [phaseOf_of_mem hu]
    rfl
  · rfl

/-- A token that comes to the frame of a word is taken into the word, or it is a blank or starts a
line, and the word ends before it.

**Proof sketch.** Where the word takes the token, its phase is that of an open word, in which the
token may come. Otherwise the word is closed, from the phase of a space too, and the frames below
have the token. -/
theorem feed_unit (hbelow : Settled tokens below) (hu : Frame.unit ∉ below) (ht : t ∈ tokens)
    (hfresh : Stage.fresh t = some q) (hφ : Meets φ (.unit :: below) t)
    (ih : (feed isolating below t).Fits tokens .outside q) :
    (feed isolating (.unit :: below) t).Fits tokens φ q := by
  have hφ' : φ = .inside ∨ φ = .spaced ∧ t.startsLine = true := by
    rcases hφ with rfl | ⟨rfl, -, hl⟩
    · exact Or.inl (phaseOf_of_mem List.mem_cons_self)
    · exact Or.inr ⟨rfl, hl⟩
  simp only [feed, Frame.react]
  split
  · rename_i st heq
    split at heq
    · exact absurd heq (by simp)
    · rename_i hends
      simp only [Bool.or_eq_true, decide_eq_true_eq, not_or] at hends
      obtain rfl := Reaction.take.inj heq
      obtain rfl : φ = .inside := hφ'.resolve_right fun h => hends.1 h.2
      have hk := Frame.kind_of_fresh_of_ne hends.1 hends.2 hfresh
      have hword : (Step.word isolating t).FitsInner tokens .inside q :=
        Step.word_fitsInner ht (by decide) hfresh hk
      exact hword.above_unit.over hbelow hu
  · rename_i out heq
    split at heq
    · obtain rfl := Reaction.pass.inj heq
      have hclose := next_closeScope (hφ'.imp_right And.left)
      exact ⟨ih.ready, Carries.cons hclose trivial ih.carries⟩
    · exact absurd heq (by simp)

/-- A token that comes to a frame that may stand above a word. The frame takes it in the phase that
it finds, or passes it on in the same phase.

**Proof sketch.** Such a frame keeps the phase, with one exception: the end of a font leaves a space
before the next line. If a word is open below, it has to end then, and the phase says so. -/
theorem feed_inner (hi : f.isInner = true) (hawaits : f.awaits s) (hs : f.IsSound tokens)
    (hbelow : Settled tokens below) (ht : t ∈ tokens) (hnext : s.next t = some q)
    (hφ : Meets φ below t) (ih : ∀ ψ, Stage.fresh t = some q → Meets ψ below t →
      (feed isolating below t).Fits tokens ψ q) :
    (feed isolating (f :: below) t).Fits tokens φ q := by
  have hr : (f.react isolating t).FitsInner tokens q t :=
    Frame.react_fitsInner hi hawaits hs ht hnext
  simp only [feed]
  cases hreact : f.react isolating t with
  | take st =>
    rw [hreact] at hr
    obtain ⟨hl, hst⟩ := hr
    have hphase : φ = phaseOf below :=
      hφ.resolve_right fun h => by rw [hl] at h; exact Bool.noConfusion h.2.2
    have hspaced : φ ≠ .spaced := by
      rw [hphase]
      unfold phaseOf
      split <;> decide
    have hst := hst φ hspaced
    refine ⟨hst.ready.append hbelow (Or.inr hst.inner), ?_⟩
    rw [phaseOf_append_of_inner hst.inner, ← hphase]
    exact hst.carries
  | pass out =>
    rw [hreact] at hr
    obtain ⟨hfresh, hquiet | ⟨hl, rfl⟩⟩ := hr
    · have h := ih φ hfresh hφ
      exact ⟨h.ready, (hquiet φ).append h.carries⟩
    · -- the space before the next line, which the word has to end at
      by_cases hu : Frame.unit ∈ below
      · have h := ih .spaced hfresh (Or.inr ⟨rfl, hu, hl⟩)
        have hspace := next_space hu (hφ.imp_right And.left)
        exact ⟨h.ready, Carries.cons hspace trivial h.carries⟩
      · obtain rfl : φ = .outside := hφ.eq_outside hu
        have h := ih .outside hfresh hφ
        exact ⟨h.ready, Carries.cons rfl trivial h.carries⟩

/-- A token that comes to a frame that stands above no word is taken or passed on outside of words.
-/
theorem feed_outer (hi : f.isInner = false) (hunit : f ≠ .unit) (hawaits : f.awaits s)
    (hs : f.IsSound tokens) (hbelow : Settled tokens below) (hu : Frame.unit ∉ below)
    (ht : t ∈ tokens) (hnext : s.next t = some q) (ih : Stage.fresh t = some q →
      (feed isolating below t).Fits tokens .outside q) :
    (feed isolating (f :: below) t).Fits tokens .outside q := by
  have hr : (f.react isolating t).Fits tokens q t :=
    Frame.react_fits hi hunit hawaits hs ht hnext
  simp only [feed]
  cases hreact : f.react isolating t with
  | take st =>
    rw [hreact] at hr
    exact hr.over hbelow hu
  | pass out =>
    rw [hreact] at hr
    have h := ih hr.1
    exact ⟨h.ready, hr.2.append h.carries⟩

/-- **One token.** A stack that waits for what may come does so after a token that may come.

**Proof sketch.** Induction on the stack. A frame that takes the token does so with a step that
fits above the frames below it. A frame that passes the token on has nothing to say but what the
phase allows, and the frame below gets the token as something new. -/
theorem feed_fits (hready : Ready tokens s stack) (hnext : s.next t = some q) (ht : t ∈ tokens)
    (hφ : Meets φ stack t) : (feed isolating stack t).Fits tokens φ q := by
  induction stack generalizing s φ with
  | nil =>
    obtain rfl : s = .between := hready
    obtain rfl : φ = .outside := hφ.eq_outside List.not_mem_nil
    exact Step.top_fits ht (by simpa using hnext)
  | cons f below ih =>
    obtain ⟨hawaits, hs, hinner, hbelow⟩ := hready
    have hfeed : ∀ ψ, Stage.fresh t = some q → Meets ψ below t →
        (feed isolating below t).Fits tokens ψ q :=
      fun ψ hfresh hψ => ih hbelow.ready (by simpa using hfresh) hψ
    by_cases hunit : f = .unit
    · subst hunit
      obtain rfl : s = .between := hawaits
      have hu : Frame.unit ∉ below := hinner.resolve_left (by decide)
      have hfresh : Stage.fresh t = some q := by simpa using hnext
      exact feed_unit hbelow hu ht hfresh hφ
        (hfeed .outside hfresh (Or.inl (phaseOf_of_not_mem hu).symm))
    have hφ' := hφ.of_cons hunit
    cases hi : f.isInner with
    | true => exact feed_inner hi hawaits hs hbelow ht hnext hφ' hfeed
    | false =>
      have hu : Frame.unit ∉ below := hinner.resolve_left (by simp [hi])
      obtain rfl : φ = .outside := hφ'.eq_outside hu
      exact feed_outer hi hunit hawaits hs hbelow hu ht hnext fun hfresh =>
        hfeed .outside hfresh hφ'

/-! ## Several tokens -/

/-- Several tokens read with a stack of frames: the instructions, and the stack afterwards. -/
def feedAll (isolating : Bool) (stack : List Frame) : List Token → Step
  | [] => ⟨[], stack⟩
  | t :: ts =>
    let s := feed isolating stack t
    let r := feedAll isolating s.frames ts
    ⟨s.out ++ r.out, r.frames⟩

/-- Where there are no tokens, the stack stays as it is. -/
@[simp] theorem feedAll_nil (isolating : Bool) (stack : List Frame) :
    feedAll isolating stack [] = ⟨[], stack⟩ := rfl

/-- Two rows of tokens are read one after the other, the second with the stack that the first
leaves. -/
theorem feedAll_append (isolating : Bool) (stack : List Frame) (ts us : List Token) :
    feedAll isolating stack (ts ++ us) =
      ⟨(feedAll isolating stack ts).out ++
          (feedAll isolating (feedAll isolating stack ts).frames us).out,
        (feedAll isolating (feedAll isolating stack ts).frames us).frames⟩ := by
  induction ts generalizing stack with
  | nil => rfl
  | cons t ts ih => simp only [List.cons_append, feedAll, ih, List.append_assoc]

/-- The program of tokens is that of a first part of them, and that of the others with the stack
that the first part leaves. -/
theorem programFrom_append (isolating : Bool) (stack : List Frame) (ts us : List Token) :
    programFrom isolating stack (ts ++ us) =
      (feedAll isolating stack ts).out ++
        programFrom isolating (feedAll isolating stack ts).frames us := by
  induction ts generalizing stack with
  | nil => rfl
  | cons t ts ih => simp only [List.cons_append, programFrom, feedAll, ih, List.append_assoc]

/-- The program of tokens is what reading them brings, and then what the stack has in store for the
end. -/
theorem programFrom_eq (isolating : Bool) (stack : List Frame) (ts : List Token) :
    programFrom isolating stack ts =
      (feedAll isolating stack ts).out ++ finish (feedAll isolating stack ts).frames := by
  simpa [programFrom] using programFrom_append isolating stack ts []

/-- Tokens that may come one after another. By induction on the tokens: what one leaves is ready for
the next. -/
theorem feedAll_fits (hready : Ready tokens s stack) (hafter : s.after ts = some q)
    (hts : ∀ t ∈ ts, t ∈ tokens) : (feedAll isolating stack ts).Fits tokens (phaseOf stack) q := by
  induction ts generalizing s stack with
  | nil =>
    obtain rfl : s = q := by simpa using hafter
    exact ⟨hready, Carries.nil tokens _⟩
  | cons t ts ih =>
    simp only [Stage.after, Option.bind_eq_some_iff] at hafter
    obtain ⟨r, hnext, hafter⟩ := hafter
    have hfirst : (feed isolating stack t).Fits tokens (phaseOf stack) r :=
      feed_fits hready hnext (hts t List.mem_cons_self) (Or.inl rfl)
    have hmore := ih hfirst.ready hafter fun u hu => hts u (List.mem_cons_of_mem t hu)
    exact ⟨hmore.ready, hfirst.carries.append hmore.carries⟩

/-! ## The end of the tokens -/

/-- At the end, the frames that may stand above a word keep the phase, but for a space. The space is
that of a font escape at the end of its line. An escape behind its parenthesis would bring a fault,
but no stage leaves one at the end. -/
theorem atEnd_of_inner (hf : f.isInner = true) (hawaits : f.awaits s) (hs : f.IsSound tokens)
    (hopen : s.isOpened = false) :
    (∀ φ, Carries tokens φ f.atEnd φ) ∨ f.atEnd = [.space] := by
  cases f with
  | escape | characterName | closingBracket => exact Or.inl (Carries.nil tokens)
  | fontEnd => exact Or.inr rfl
  | escapeArgument u =>
    exact Or.inl fun φ => Carries.quiet φ (ArgumentUse.settle_sound hs none)
  | openedArgument u bracketed =>
    obtain rfl : s = .opened bracketed := hawaits
    exact Bool.noConfusion hopen
  | restOfLine out =>
    cases out with
    | nil => exact Or.inl (Carries.nil tokens)
    | cons => exact Bool.noConfusion hf
  | _ => exact Bool.noConfusion hf

/-- At the end, the frames that stand above no word are outside of words. They send out what they
have in store or what their argument comes to, and neither opens a word. -/
theorem atEnd_of_not_inner (hf : f.isInner = false) (hs : f.IsSound tokens) :
    Carries tokens .outside f.atEnd .outside := by
  have hsettle : ∀ {p : Purpose} {t : Token} (argument : Option Text), IsCaller tokens p t →
      Carries tokens .outside ((p.settle t argument).1 ++ (p.settle t argument).2) .outside :=
    fun argument h => Carries.outside fun i hi =>
      Purpose.settle_sound h argument i (List.mem_append.mp hi)
  cases f with
  | restOfLine out | afterwards out => exact Carries.outside hs
  | argument p caller => exact hsettle none hs
  | bareArgument p caller text | quotedArgument p caller text => exact hsettle (some text) hs
  | escape | escapeArgument | openedArgument | characterName | closingBracket | fontEnd =>
    exact Bool.noConfusion hf
  | _ => exact Carries.outside (by simp [Frame.atEnd, Instr.IsSound])

/-- The frames that are left at the end are left in order, and the word that is open, if any, is
closed.

**Proof sketch.** Induction on the stack. The frames of an escape may add a space to the word, after
which only the end of the word may follow. -/
theorem finish_carries (hready : Ready tokens s stack) (hopen : s.isOpened = false)
    (hφ : φ = phaseOf stack ∨ φ = .spaced ∧ Frame.unit ∈ stack) :
    Carries tokens φ (finish stack) .outside := by
  induction stack generalizing s φ with
  | nil =>
    rcases hφ with rfl | ⟨-, hmem⟩
    · exact Carries.nil tokens _
    · exact absurd hmem List.not_mem_nil
  | cons f below ih =>
    obtain ⟨hawaits, hs, hinner, hbelow⟩ := hready
    have hrest : ∀ ψ, ψ = phaseOf below ∨ ψ = .spaced ∧ Frame.unit ∈ below →
        Carries tokens ψ (finish below) .outside := fun ψ hψ => ih hbelow.ready rfl hψ
    show Carries tokens φ (f.atEnd ++ finish below) .outside
    by_cases hunit : f = .unit
    · subst hunit
      have hu : Frame.unit ∉ below := hinner.resolve_left (by decide)
      have hphase : φ = .inside ∨ φ = .spaced := by
        rcases hφ with rfl | ⟨rfl, -⟩
        · exact Or.inl (phaseOf_of_mem List.mem_cons_self)
        · exact Or.inr rfl
      -- the end of the unit is the end of the word
      exact Carries.cons (next_closeScope hphase) trivial
        (hrest .outside (Or.inl (phaseOf_of_not_mem hu).symm))
    rw [phaseOf_cons hunit, List.mem_cons, or_iff_right (Ne.symm hunit)] at hφ
    cases hi : f.isInner with
    | true =>
      rcases atEnd_of_inner hi hawaits hs hopen with hquiet | hspace
      · exact (hquiet φ).append (hrest φ hφ)
      · rw [hspace]
        -- a space within a unit leaves its word open and spaced; elsewhere there is no word
        by_cases hu : Frame.unit ∈ below
        · have hspaced := next_space hu (hφ.imp_right And.left)
          exact Carries.cons hspaced trivial (hrest .spaced (Or.inr ⟨rfl, hu⟩))
        · obtain rfl : φ = .outside := by
            rcases hφ with rfl | ⟨-, hmem⟩
            · exact phaseOf_of_not_mem hu
            · exact absurd hmem hu
          exact Carries.cons rfl trivial (hrest .outside (Or.inl (phaseOf_of_not_mem hu).symm))
    | false =>
      have hu : Frame.unit ∉ below := hinner.resolve_left (by simp [hi])
      obtain rfl : φ = .outside := by
        rcases hφ with rfl | ⟨-, hmem⟩
        · exact phaseOf_of_not_mem hu
        · exact absurd hmem hu
      exact (atEnd_of_not_inner hi hs).append
        (hrest .outside (Or.inl (phaseOf_of_not_mem hu).symm))

/-- The program of tokens that come in order is sound and keeps to the phases of words, where they
do not end behind the opening of an argument. -/
theorem program_carries_of_after (isolating : Bool) (hafter : Stage.between.after ts = some q)
    (hopen : q.isOpened = false) (hts : ∀ t ∈ ts, t ∈ tokens) :
    Carries tokens .outside (program isolating ts) .outside := by
  have hready : Ready tokens .between [] := rfl
  have hfits : (feedAll isolating [] ts).Fits tokens .outside q := feedAll_fits hready hafter hts
  rw [program, programFrom_eq]
  exact hfits.carries.append (finish_carries hfits.ready hopen (Or.inl rfl))

/-- The program of a source is sound and keeps to the phases of words. -/
theorem program_carries (isolating : Bool) (source : Text) :
    Carries (Token.ofSource source) .outside (program isolating (Token.ofSource source))
      .outside := by
  obtain ⟨q, hafter, hopen⟩ := Stage.after_ofSource source
  exact program_carries_of_after isolating hafter hopen fun _ h => h

end Manpage

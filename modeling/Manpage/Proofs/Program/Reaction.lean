import Manpage.Proofs.Program.Step

/-!
# Reactions that keep the order

A frame takes a token with a step that keeps the order, or it passes the token on. A frame passes
only what begins something new, so that the frame below may take it as such.

## Main definitions

* `Manpage.Reaction.Fits`, `Manpage.Reaction.FitsInner` — what a frame does outside of words, and
  what a frame above a word does.

## Main results

* `Manpage.Frame.react_fits`, `Manpage.Frame.react_fitsInner` — every frame does so.
-/

namespace Manpage

variable {tokens : List Token} {s q : Stage} {t : Token} {f : Frame}

namespace Reaction

/-- A frame outside of words takes a token, or passes it on as something new. -/
def Fits (tokens : List Token) (q : Stage) (t : Token) : Reaction → Prop
  | take st => st.Fits tokens .outside q
  | pass out => Stage.fresh t = some q ∧ Carries tokens .outside out .outside

/-- A frame of an escape takes a token that starts no line, or passes it on as something new. What
it does then may come anywhere in a word, but for the space before the next line. -/
def FitsInner (tokens : List Token) (q : Stage) (t : Token) : Reaction → Prop
  | take st => t.startsLine = false ∧ ∀ φ ≠ WordPhase.spaced, st.FitsInner tokens φ q
  | pass out => Stage.fresh t = some q ∧
      ((∀ φ, Carries tokens φ out φ) ∨ (t.startsLine = true ∧ out = [.space]))

end Reaction

namespace Frame

variable {isolating : Bool}

/-- Behind the backslash, the command of an escape is taken, and anything that begins something new
is passed on. -/
theorem react_escape (ht : t ∈ tokens) (h : Stage.command.next t = some q) :
    (escape.react isolating t).FitsInner tokens q t := by
  simp only [react]
  rcases Stage.next_cases h with ⟨hends, -, hfresh⟩ | ⟨hl, hb, h⟩
  · have hpass : (t.startsLine || decide (t.kind ≠ .command)) = true := by
      rcases hends with hl | hk
      · simp [hl]
      · simp [hk]
    rw [if_pos hpass]
    exact ⟨hfresh, Or.inl (Carries.nil tokens)⟩
  · have hk : t.kind = .command ∧ q = Stage.ofEscape (Escape.ofCommand t.value) := by
      cases hk : t.kind <;> simp_all [Stage.advance]
    obtain ⟨hk, rfl⟩ := hk
    rw [if_neg (by simp [hl, hk])]
    exact ⟨hl, fun φ hφ => Step.command_fitsInner ht hφ hk⟩

/-- Behind a command that takes an argument, the argument or its opening is taken, and anything that
begins something new ends the escape.

**Proof sketch.** By what the stages allow to come. A token that begins something new ends the
escape, whose use is settled without an argument; the others are the argument or the opening of it.
-/
theorem react_escapeArgument {u : ArgumentUse} (ht : t ∈ tokens) (hu : u.IsSound tokens)
    (h : Stage.argument.next t = some q) :
    ((escapeArgument u).react isolating t).FitsInner tokens q t := by
  have hquiet : ∀ argument φ, Carries tokens φ (u.settle argument) φ :=
    fun argument φ => Carries.quiet φ (ArgumentUse.settle_sound hu argument)
  have hconsume : ∀ φ, Carries tokens φ [.consume t] φ :=
    fun φ => Carries.quiet φ (by simp [Instr.IsSound, ht, Instr.isQuiet])
  simp only [react]
  rcases Stage.next_cases h with ⟨hends, -, hfresh⟩ | ⟨hl, hb, h⟩
  · split
    · exact ⟨hfresh, Or.inl (hquiet none)⟩
    · rename_i hl
      have hk : t.kind = .blank := hends.resolve_left hl
      simp only [hk]
      exact ⟨hfresh, Or.inl (hquiet none)⟩
  · rw [if_neg (by simp [hl])]
    cases hk : t.kind with
    | openParen =>
      obtain rfl : q = .opened false := by simpa [Stage.advance, hk, eq_comm] using h
      exact ⟨hl, fun φ _ =>
        ⟨⟨rfl, hu, Or.inl rfl, trivial⟩, by simp [isInner], hconsume φ⟩⟩
    | openBracket =>
      obtain rfl : q = .opened true := by simpa [Stage.advance, hk, eq_comm] using h
      exact ⟨hl, fun φ _ =>
        ⟨⟨rfl, hu, Or.inl rfl, trivial⟩, by simp [isInner], hconsume φ⟩⟩
    | argument =>
      obtain rfl : q = .between := by simpa [Stage.advance, hk, eq_comm] using h
      exact ⟨hl, fun φ _ =>
        ⟨rfl, by simp, (hconsume φ).append (hquiet (some t.value) φ)⟩⟩
    | _ => simp [Stage.advance, hk] at h

/-- Behind a name in brackets the closing bracket may follow, behind any other something new. -/
theorem ready_of_name (tokens : List Token) (bracketed : Bool) :
    Ready tokens (Stage.ofName bracketed) (if bracketed then [closingBracket] else []) ∧
      ∀ f ∈ (if bracketed then [closingBracket] else []), f.isInner = true := by
  cases bracketed with
  | false => exact ⟨rfl, by simp⟩
  | true => exact ⟨⟨rfl, trivial, Or.inl rfl, trivial⟩, by simp [isInner]⟩

/-- Behind the opening of an argument, the argument is taken. Nothing else can come. The stages
allow no token but the argument. -/
theorem react_openedArgument {u : ArgumentUse} {bracketed : Bool} (ht : t ∈ tokens)
    (hu : u.IsSound tokens) (h : (Stage.opened bracketed).next t = some q) :
    ((openedArgument u bracketed).react isolating t).FitsInner tokens q t := by
  simp only [react]
  rcases Stage.next_cases h with ⟨-, hopen, -⟩ | ⟨hl, hb, h⟩
  · exact Bool.noConfusion hopen
  · have hk : t.kind = .argument ∧ q = Stage.ofName bracketed := by
      cases hk : t.kind <;> simp_all [Stage.advance]
    obtain ⟨hk, rfl⟩ := hk
    rw [if_pos hk]
    obtain ⟨hready, hinner⟩ := ready_of_name tokens bracketed
    refine ⟨hl, fun φ _ => ⟨hready, hinner, Carries.quiet φ ?_⟩⟩
    intro i hi
    rcases List.mem_cons.mp hi with rfl | hi
    · exact ⟨ht, rfl⟩
    · exact ArgumentUse.settle_sound hu _ i hi

/-- Behind a command that takes the name of a character, the name is taken, and anything that begins
something new ends the escape.

**Proof sketch.** By what the stages allow to come: a token that begins something new, which is
passed on, or the name, for which a character is shown in the word. -/
theorem react_characterName {command : Token} {bracketed : Bool} (ht : t ∈ tokens)
    (hc : IsCommand tokens command) (h : (Stage.name bracketed).next t = some q) :
    ((characterName command bracketed).react isolating t).FitsInner tokens q t := by
  simp only [react]
  rcases Stage.next_cases h with ⟨hends, -, hfresh⟩ | ⟨hl, hb, h⟩
  · have hpass : (t.startsLine || decide (t.kind ≠ .argument)) = true := by
      rcases hends with hl | hk
      · simp [hl]
      · simp [hk]
    rw [if_pos hpass]
    exact ⟨hfresh, Or.inl (Carries.nil tokens)⟩
  · have hk : t.kind = .argument ∧ q = Stage.ofName bracketed := by
      cases hk : t.kind <;> simp_all [Stage.advance]
    obtain ⟨hk, rfl⟩ := hk
    rw [if_neg (by simp [hl, hk])]
    obtain ⟨hready, hinner⟩ := ready_of_name tokens bracketed
    refine ⟨hl, fun φ hφ => ⟨hready, hinner, Carries.shown hφ ?_⟩⟩
    intro i hi
    rcases List.mem_cons.mp hi with rfl | hi
    · exact ⟨ht, Or.inl rfl⟩
    · exact characterNamed_sound hc _ i hi

/-- Behind a name in brackets, the closing bracket is taken, and anything that begins something new
ends the escape. -/
theorem react_closingBracket (ht : t ∈ tokens) (h : Stage.closing.next t = some q) :
    (closingBracket.react isolating t).FitsInner tokens q t := by
  simp only [react]
  rcases Stage.next_cases h with ⟨hends, -, hfresh⟩ | ⟨hl, hb, h⟩
  · have hk : t.kind ≠ .closeBracket := by
      intro hk
      simp [Stage.fresh, hk] at hfresh
    rw [if_neg hk]
    exact ⟨hfresh, Or.inl (Carries.nil tokens)⟩
  · have hk : t.kind = .closeBracket ∧ q = .between := by
      cases hk : t.kind <;> simp_all [Stage.advance]
    obtain ⟨hk, rfl⟩ := hk
    rw [if_pos hk]
    refine ⟨hl, fun φ _ => ⟨rfl, by simp, Carries.quiet φ ?_⟩⟩
    simp [Instr.IsSound, ht, Instr.isQuiet]

/-- Behind a font escape, a token that starts a line is passed on behind a space, any other with
nothing before it. -/
theorem react_fontEnd (h : Stage.fresh t = some q) :
    (fontEnd.react isolating t).FitsInner tokens q t := by
  simp only [react]
  split
  · rename_i hl
    exact ⟨h, Or.inr ⟨hl, rfl⟩⟩
  · exact ⟨h, Or.inl (Carries.nil tokens)⟩

/-- A comment in a word runs to the end of the line. Every token of the line is recorded, so the
phase of the word stays what it is. -/
theorem react_comment (ht : t ∈ tokens) (h : s.next t = some q) :
    ((restOfLine []).react isolating t).FitsInner tokens q t := by
  simp only [react]
  split
  · rename_i hl
    exact ⟨Stage.fresh_of_next (Or.inl hl) h, Or.inl (Carries.nil tokens)⟩
  · rename_i hl
    refine ⟨by simpa using hl, fun φ _ => ⟨⟨trivial, by simp [IsSound], Or.inl rfl, trivial⟩,
      by simp [isInner], Carries.quiet φ ?_⟩⟩
    simp [Instr.IsSound, ht, Instr.isQuiet]

/-- The frames that may stand above a word take and pass tokens as a word allows. One lemma for each
frame, at the stage that it waits for. -/
theorem react_fitsInner (hf : f.isInner = true) (hawaits : f.awaits s) (hs : f.IsSound tokens)
    (ht : t ∈ tokens) (h : s.next t = some q) : (f.react isolating t).FitsInner tokens q t := by
  cases f with
  | escape =>
    obtain rfl : s = .command := hawaits
    exact react_escape ht h
  | escapeArgument u =>
    obtain rfl : s = .argument := hawaits
    exact react_escapeArgument ht hs h
  | openedArgument u bracketed =>
    obtain rfl : s = .opened bracketed := hawaits
    exact react_openedArgument ht hs h
  | characterName command bracketed =>
    obtain rfl : s = .name bracketed := hawaits
    exact react_characterName ht hs h
  | closingBracket =>
    obtain rfl : s = .closing := hawaits
    exact react_closingBracket ht h
  | fontEnd =>
    obtain rfl : s = .between := hawaits
    exact react_fontEnd (by simpa using h)
  | restOfLine out =>
    cases out with
    | nil => exact react_comment ht h
    | cons => exact Bool.noConfusion hf
  | _ => exact Bool.noConfusion hf

/-- The part of a word that begins something new where no line starts and no blank stands. -/
theorem kind_of_fresh_of_ne (hl : ¬ t.startsLine = true) (hb : t.kind ≠ .blank)
    (h : Stage.fresh t = some q) : t.kind = .word ∨ t.kind = .quote ∨ t.kind = .backslash :=
  (Stage.kind_of_fresh (by simpa using hl) h).resolve_left hb

/-- After a blank something new may come. -/
theorem eq_between_of_blank (hb : t.kind = .blank) (h : Stage.fresh t = some q) :
    q = .between := by
  simpa [Stage.fresh, hb, eq_comm] using h

/-- A frame that skips a token and leaves one frame which waits for anything. -/
theorem fits_consume (ht : t ∈ tokens) (hf : ∀ q, f.awaits q) (hs : f.IsSound tokens)
    (hne : f ≠ .unit) : Step.Fits tokens .outside q ⟨[.consume t], [f]⟩ := by
  refine Step.fits_of_not_mem ⟨hf q, hs, Or.inr List.not_mem_nil, trivial⟩ ?_ ?_
  · exact fun hmem => hne (List.mem_singleton.mp hmem).symm
  · simp [Instr.IsSound, ht]

/-- On a line of text, all tokens of the line are taken, and the first of the next line is passed
on. -/
theorem react_line (ht : t ∈ tokens) (h : Stage.fresh t = some q) :
    (line.react isolating t).Fits tokens q t := by
  simp only [react]
  split
  · exact ⟨h, Carries.outside (by simp [Instr.IsSound])⟩
  · rename_i hl
    have hk := Stage.kind_of_fresh (by simpa using hl) h
    refine Step.line_fits ht h ?_ ?_
    · rintro hname
      simp [hname] at hk
    · rintro hempty
      simp [hempty] at hk

/-- Among arguments, all tokens of the line are taken, and the first of the next line is passed on.
-/
theorem react_arguments (first : Bool) (ht : t ∈ tokens) (h : Stage.fresh t = some q) :
    ((arguments first).react isolating t).Fits tokens q t := by
  simp only [react]
  split
  · exact ⟨h, Carries.nil tokens _⟩
  · rename_i hl
    split
    · rename_i hb
      obtain rfl := eq_between_of_blank hb h
      exact Step.fits_of_not_mem ⟨rfl, trivial, Or.inr List.not_mem_nil, trivial⟩ (by simp)
        (by simp [Instr.IsSound, ht])
    · rename_i hb
      exact Step.arguments_fits first ht h (kind_of_fresh_of_ne hl hb h)

/-- Between quotes, all tokens of the line are taken up to the second quote, and the first of the
next line is passed on. -/
theorem react_quoted (ht : t ∈ tokens) (h : Stage.fresh t = some q) :
    (quoted.react isolating t).Fits tokens q t := by
  simp only [react]
  split
  · exact ⟨h, Carries.nil tokens _⟩
  · rename_i hl
    split
    · rename_i hk
      obtain rfl : q = .between := by simpa [Stage.fresh, hk, eq_comm] using h
      exact Step.fits_of_not_mem rfl List.not_mem_nil (by simp [Instr.IsSound, ht])
    · have hword : (Step.word isolating t).Fits tokens .outside q := by
        rcases Stage.kind_of_fresh (by simpa using hl) h with hk | hk
        · exact Step.word_fits_of_blank ht hk h
        · exact (Step.word_fitsInner ht (by decide) h hk).fits
      exact hword.above rfl trivial (by decide)

/-- Where an argument or the next line is waited for, a token is taken as the one or the other. A
macro and an empty line on the next line are passed on. Within the line blanks are skipped, and any
other token begins an argument. -/
theorem react_argumentsOrLine (ht : t ∈ tokens) (h : Stage.fresh t = some q) :
    (argumentsOrLine.react isolating t).Fits tokens q t := by
  simp only [react]
  split
  · split
    · exact ⟨h, Carries.nil tokens _⟩
    · rename_i hk
      simp only [Bool.or_eq_true, decide_eq_true_eq, not_or] at hk
      exact Step.line_fits ht h hk.1 hk.2
  · rename_i hl
    split
    · rename_i hb
      obtain rfl := eq_between_of_blank hb h
      exact Step.fits_of_not_mem ⟨rfl, trivial, Or.inr List.not_mem_nil, trivial⟩ (by simp)
        (by simp [Instr.IsSound, ht])
    · rename_i hb
      exact Step.arguments_fits true ht h (kind_of_fresh_of_ne hl hb h)

/-- Among arguments in two fonts, all tokens of the line are taken, and the first of the next line
is passed on. Blanks are skipped before the first argument and shown between others. -/
theorem react_alternating (first : Bool) (font other : Font) (ht : t ∈ tokens)
    (h : Stage.fresh t = some q) :
    ((alternating first font other).react isolating t).Fits tokens q t := by
  simp only [react]
  split
  · exact ⟨h, Carries.outside (by simp [Instr.IsSound])⟩
  · rename_i hl
    split
    · rename_i hb
      obtain rfl := eq_between_of_blank hb h
      have hready : ∀ first, Ready tokens .between [alternating first font other] :=
        fun first => ⟨rfl, trivial, Or.inr List.not_mem_nil, trivial⟩
      split
      · exact Step.fits_of_not_mem (hready true) (by simp) (by simp [Instr.IsSound, ht])
      · refine Step.fits_of_not_mem (hready false) (by simp) ?_
        simp only [List.mem_cons, List.not_mem_nil, or_false, forall_eq_or_imp, forall_eq]
        exact ⟨⟨ht, by simp⟩, ⟨t, ht, hb, rfl⟩, by simp⟩
    · rename_i hb
      exact Step.inFont_fits font other ht h (kind_of_fresh_of_ne hl hb h)

/-- Where a marker is waited for, blanks are skipped, the first other token of the line begins it,
and the first token of the next line is passed on. -/
theorem react_marker (ht : t ∈ tokens) (h : Stage.fresh t = some q) :
    (marker.react isolating t).Fits tokens q t := by
  simp only [react]
  split
  · exact ⟨h, Carries.nil tokens _⟩
  · rename_i hl
    split
    · rename_i hb
      obtain rfl := eq_between_of_blank hb h
      exact Step.fits_of_not_mem ⟨rfl, trivial, Or.inr List.not_mem_nil, trivial⟩ (by simp)
        (by simp [Instr.IsSound, ht])
    · rename_i hb
      exact (Step.argument_fits ht h (kind_of_fresh_of_ne hl hb h)).above rfl
        (by simp [IsSound, Instr.IsSound]) (by simp)

/-- Where a tag is waited for, a macro is called and any other token begins the tag, but for the
token of an empty line, which is passed on. -/
theorem react_tag (ht : t ∈ tokens) (h : Stage.fresh t = some q) :
    (tag.react isolating t).Fits tokens q t := by
  simp only [react]
  split
  · exact ⟨h, Carries.nil tokens _⟩
  · rename_i hk
    obtain rfl : q = .between := by
      simp only [Stage.fresh, hk, Option.ite_none_right_eq_some, Option.some.injEq] at h
      exact h.2.symm
    exact Step.call_fits ht hk
  · rename_i hempty hname
    exact Step.line_fits ht h hname hempty

/-- The rest of a line is taken token by token, to no effect, and the first token of the next line
is passed on behind what is in store. -/
theorem react_restOfLine {out : List Instr} (ht : t ∈ tokens)
    (hs : (restOfLine out).IsSound tokens) (h : s.next t = some q) :
    ((restOfLine out).react isolating t).Fits tokens q t := by
  simp only [react]
  split
  · rename_i hl
    exact ⟨Stage.fresh_of_next (Or.inl hl) h, Carries.outside hs⟩
  · exact fits_consume ht (fun _ => trivial) hs (by simp)

/-- Where the argument of a macro is waited for, its first token is taken. The first token of the
next line begins a title, or is passed on behind the use of a missing argument. -/
theorem react_argument {p : Purpose} {caller : Token} (ht : t ∈ tokens)
    (hs : IsCaller tokens p caller) (h : s.next t = some q) :
    ((argument p caller).react isolating t).Fits tokens q t := by
  simp only [react]
  split
  · rename_i hl
    split
    · exact fits_consume ht (fun _ => trivial) trivial (by simp)
    · refine ⟨Stage.fresh_of_next (Or.inl hl) h, Carries.outside fun i hi => ?_⟩
      exact Purpose.settle_sound hs none i (List.mem_append.mp hi)
  · split
    · exact fits_consume ht (fun _ => trivial) hs (by simp)
    · split
      · exact fits_consume ht (fun _ => trivial) hs (by simp)
      · exact fits_consume ht (fun _ => trivial) hs (by simp)

/-- A bare argument takes the tokens up to the next blank, and the first of the next line is passed
on behind its use. The first part of its use comes at once, and the second is stored for the end of
the line. -/
theorem react_bareArgument {p : Purpose} {caller : Token} (text : Text) (ht : t ∈ tokens)
    (hs : IsCaller tokens p caller) (h : s.next t = some q) :
    ((bareArgument p caller text).react isolating t).Fits tokens q t := by
  have hsettle := Purpose.settle_sound hs (some text)
  simp only [react]
  split
  · rename_i hl
    exact ⟨Stage.fresh_of_next (Or.inl hl) h,
      Carries.outside fun i hi => hsettle i (List.mem_append.mp hi)⟩
  · split
    · refine Step.fits_of_not_mem
        ⟨trivial, fun i hi => hsettle i (Or.inr hi), Or.inr List.not_mem_nil, trivial⟩ (by simp) ?_
      intro i hi
      rcases List.mem_append.mp hi with hi | hi
      · exact hsettle i (Or.inl hi)
      · obtain rfl := List.mem_singleton.mp hi
        exact ⟨ht, by simp⟩
    · exact fits_consume ht (fun _ => trivial) hs (by simp)

/-- A quoted argument takes the tokens up to the second quote, and the first of the next line is
passed on behind its use. The first part of its use comes at once, and the second is stored for the
end of the line. -/
theorem react_quotedArgument {p : Purpose} {caller : Token} (text : Text) (ht : t ∈ tokens)
    (hs : IsCaller tokens p caller) (h : s.next t = some q) :
    ((quotedArgument p caller text).react isolating t).Fits tokens q t := by
  have hsettle := Purpose.settle_sound hs (some text)
  simp only [react]
  split
  · rename_i hl
    exact ⟨Stage.fresh_of_next (Or.inl hl) h,
      Carries.outside fun i hi => hsettle i (List.mem_append.mp hi)⟩
  · split
    · refine Step.fits_of_not_mem
        ⟨trivial, fun i hi => hsettle i (Or.inr hi), Or.inr List.not_mem_nil, trivial⟩ (by simp) ?_
      intro i hi
      rcases List.mem_cons.mp hi with rfl | hi
      · exact ⟨ht, by simp⟩
      · exact hsettle i (Or.inl hi)
    · exact fits_consume ht (fun _ => trivial) hs (by simp)

/-- A title on a line of its own takes the tokens of the line, and the first of the next line is
passed on behind the section that it enters. -/
theorem react_titleLine (text : Text) (ht : t ∈ tokens) (h : s.next t = some q) :
    ((titleLine text).react isolating t).Fits tokens q t := by
  simp only [react]
  split
  · rename_i hl
    exact ⟨Stage.fresh_of_next (Or.inl hl) h, Carries.outside (by simp [Instr.IsSound])⟩
  · exact fits_consume ht (fun _ => trivial) trivial (by simp)

/-- The frames that stand above no word keep to the phases of words. One lemma for each frame, at
the stage that it waits for; most of them wait for none but a token that begins something new. -/
theorem react_fits (hf : f.isInner = false) (hne : f ≠ .unit) (hawaits : f.awaits s)
    (hs : f.IsSound tokens) (ht : t ∈ tokens) (h : s.next t = some q) :
    (f.react isolating t).Fits tokens q t := by
  have hfresh : s = .between → Stage.fresh t = some q := by
    rintro rfl
    simpa using h
  cases f with
  | unit => exact absurd rfl hne
  | line => exact react_line ht (hfresh hawaits)
  | arguments first => exact react_arguments first ht (hfresh hawaits)
  | quoted => exact react_quoted ht (hfresh hawaits)
  | argumentsOrLine => exact react_argumentsOrLine ht (hfresh hawaits)
  | alternating first font other => exact react_alternating first font other ht (hfresh hawaits)
  | marker => exact react_marker ht (hfresh hawaits)
  | tag => exact react_tag ht (hfresh hawaits)
  | restOfLine out => exact react_restOfLine ht hs h
  | afterwards out => exact ⟨hfresh hawaits, Carries.outside hs⟩
  | argument p caller => exact react_argument ht hs h
  | bareArgument p caller text => exact react_bareArgument text ht hs h
  | quotedArgument p caller text => exact react_quotedArgument text ht hs h
  | titleLine text => exact react_titleLine text ht h
  | escape | escapeArgument | openedArgument | characterName | closingBracket | fontEnd =>
    exact Bool.noConfusion hf

end Frame

end Manpage

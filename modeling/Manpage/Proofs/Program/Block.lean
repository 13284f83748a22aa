import Manpage.Proofs.Program.Argument
import Manpage.Proofs.Program.Called
import Manpage.Proofs.Program.Macros

/-!
# Blocks between two macros

A macro that wants an argument ends with its line, so the program of a document with such a macro at
its top is that of the tokens before it, that of its line, and that of the lines below. Two such
macros make a block of the lines between them, and the block has the program of a document of its
own.

## Main definitions

* `Manpage.AtTop` — tokens after which no paragraph waits for its tag.
* `Manpage.Step.Lacks` — a step without a sort of instructions.

## Main results

* `Manpage.exists_program_argument` — the program of the line of a macro that wants an argument.
* `Manpage.program_append_argument` — the program around such a line.
* `Manpage.program_block` — the program of a document with a block.
* `Manpage.noneOf_program` — sorts of instructions that no macro among the tokens brings.
-/

namespace Manpage

variable {t u : Token} {ts us before line body ending rest : List Token} {s q r : Stage}
  {p p' : Purpose} {P : Instr → Bool} {isolating : Bool} {stack : List Frame}

/-! ## The line of a macro -/

/-- After the tokens, no paragraph waits for its tag. A macro that comes next is called at the top
of the document. -/
def AtTop (isolating : Bool) (ts : List Token) : Prop :=
  .tag ∉ (feedAll isolating [] ts).frames

/-- Whether tokens leave no tag waiting can be computed by reading them. -/
instance (isolating : Bool) (ts : List Token) : Decidable (AtTop isolating ts) :=
  inferInstanceAs (Decidable (¬ _ ∈ _))

/-- A macro that wants an argument, and nothing else. -/
def Token.Wants (isolating : Bool) (t : Token) (p : Purpose) : Prop :=
  Step.call isolating t = ⟨[.consume t], [.argument p t]⟩

/-- **The line of a macro that wants an argument.** What is to be done at the end of the line comes
last. Before it there are records and what is to be done with the argument at once.

**Proof sketch.** The macro leaves a frame for its argument and nothing below it. The tokens of the
line settle the argument there, between records; its second part is stored and comes at the end of
the line. -/
theorem exists_program_argument (isolating : Bool) (hk : t.kind = .macroName)
    (hl : t.startsLine = true) (ht : t.Wants isolating p) (hp : p ≠ .title)
    (hline : ∀ v ∈ line, v.startsLine = false) :
    (∃ opening, program isolating (t :: line) =
        opening ++ (p.settle t (Token.firstArgument? line)).2 ∧
      ∀ i ∈ opening, i = .beginLine ∨ i.isRecord = true ∨
        i ∈ (p.settle t (Token.firstArgument? line)).1) ∧
    ∀ f ∈ (feedAll isolating [] (t :: line)).frames, f.EndsAtLine := by
  obtain ⟨s, ⟨f, first, between, hframes, hfirst, hbetween, heq, hends⟩, hfeed⟩ :=
    exists_feedAll_argument isolating p t hline
  specialize hfeed []
  have hcall : Step.call isolating t = ⟨[.consume t], [.argument p t]⟩ := ht
  have htop : Step.top isolating t = ⟨[.beginLine, .consume t], [.argument p t]⟩ := by
    simp only [Step.top, hk, hcall, hl, if_true]
    rfl
  have hfeedAll : feedAll isolating [] (t :: line) =
      ⟨[.beginLine, .consume t] ++ s.out, [f]⟩ := by
    rw [feedAll_cons, feed, htop, hfeed, hframes, List.append_nil]
  have hprogram : program isolating (t :: line) = [.beginLine, .consume t] ++ first ++
      (p.settle t (Token.firstArgument? line)).1 ++ between ++
      (p.settle t (Token.firstArgument? line)).2 := by
    have hfinish : finish [f] = f.atEnd := List.flatMap_singleton _ _
    rw [program, programFrom_eq, hfeedAll]
    simp only [hfinish, List.append_assoc, heq]
  refine ⟨⟨_, hprogram, ?_⟩, ?_⟩
  · intro i hi
    simp only [List.mem_append, List.mem_cons, List.not_mem_nil, or_false] at hi
    rcases hi with (((rfl | rfl) | hi) | hi) | hi
    · exact Or.inl rfl
    · exact Or.inr (Or.inl rfl)
    · exact Or.inr (Or.inl (hfirst i hi))
    · exact Or.inr (Or.inr hi)
    · exact Or.inr (Or.inl (hbetween i hi))
  · rw [hfeedAll, List.forall_mem_singleton]
    exact hends fun h => absurd h hp

/-! ## The program around a line -/

/-- Before a token that starts its line, no argument of an escape is opened. -/
theorem Stage.isOpened_eq_false_of_next (h : s.next t = some q) (hl : t.startsLine = true) :
    s.isOpened = false := by
  rcases Stage.next_cases h with ⟨-, hs, -⟩ | ⟨hnot, -, -⟩
  · exact hs
  · exact absurd (hl.symm.trans hnot) (by simp)

/-- The stage before a token that starts its line. -/
theorem Stage.exists_after_of_startsLine (h : r.after (ts ++ t :: us) = some q)
    (hl : t.startsLine = true) :
    ∃ s, r.after ts = some s ∧ s.isOpened = false ∧ s.after (t :: us) = some q := by
  obtain ⟨s, hbefore, hrest⟩ := Stage.exists_after_of_append h
  refine ⟨s, hbefore, ?_, hrest⟩
  simp only [Stage.after, Option.bind_eq_some_iff] at hrest
  obtain ⟨_, hnext, -⟩ := hrest
  exact Stage.isOpened_eq_false_of_next hnext hl

/-- Tokens from the start of a line on may also come at the beginning. The first of them starts a
line, and at the start of a line no escape is open. -/
theorem Stage.exists_after_between (h : r.after (ts ++ t :: us) = some q)
    (hl : t.startsLine = true) (hts : ∀ v ∈ ts.head?, v.startsLine = true) :
    ∃ s, Stage.between.after ts = some s ∧ s.isOpened = false := by
  obtain ⟨s, hbefore, hs, -⟩ := Stage.exists_after_of_startsLine h hl
  cases ts with
  | nil => exact ⟨.between, rfl, rfl⟩
  | cons v ts =>
    refine ⟨s, ?_, hs⟩
    simp only [Stage.after, Option.bind_eq_some_iff] at hbefore ⊢
    obtain ⟨m, hnext, hmore⟩ := hbefore
    have hv := hts v rfl
    rw [Stage.next_of_ends (Stage.isOpened_eq_false_of_next hnext hv) (Or.inl hv)] at hnext
    exact ⟨m, (Stage.next_between v).trans hnext, hmore⟩

/-- A macro at the top of tokens comes to the empty stack. No frame waits for an opened argument
there, so all that are left let go of the macro. -/
theorem frames_feedAll_append_called (hbefore : Stage.between.after before = some s)
    (hs : s.isOpened = false) (htop : AtTop isolating before) (hk : t.kind = .macroName)
    (hl : t.startsLine = true) (ts : List Token) :
    (feedAll isolating [] (before ++ t :: ts)).frames =
      (feedAll isolating [] (t :: ts)).frames := by
  have hempty : Ready before .between [] := rfl
  have hready : Ready before s (feedAll isolating [] before).frames :=
    (feedAll_fits hempty hbefore fun _ h => h).ready
  rw [feedAll_append, feedAll_cons, feedAll_cons,
    feed_called hk hl htop (hready.ne_openedArgument hs)]
  rfl

/-- **The program around a line.** Where a macro that wants an argument comes at the top, the
program is that of the tokens before it, that of its line and that of the lines below. -/
theorem program_append_argument (hbefore : Stage.between.after before = some s)
    (hs : s.isOpened = false) (htop : AtTop isolating before) (hk : t.kind = .macroName)
    (hl : t.startsLine = true) (ht : t.Wants isolating p) (hp : p ≠ .title)
    (hline : ∀ v ∈ line, v.startsLine = false) (hrest : ∀ v ∈ rest.head?, v.startsLine = true) :
    program isolating (before ++ t :: (line ++ rest)) =
      program isolating before ++ (program isolating (t :: line) ++ program isolating rest) := by
  have hends := (exists_program_argument isolating hk hl ht hp hline).2
  rw [program_append_called hbefore hs htop hk hl, ← List.cons_append, program_append hends hrest]

/-- The lines below a macro that wants an argument are at the top where the document is. The line of
the macro ends where the next one starts, so that the frames behind the lines are those of the lines
by themselves. -/
theorem atTop_of_append (hbefore : Stage.between.after before = some s)
    (hs : s.isOpened = false) (htop : AtTop isolating before) (hk : t.kind = .macroName)
    (hl : t.startsLine = true) (ht : t.Wants isolating p) (hp : p ≠ .title)
    (hline : ∀ v ∈ line, v.startsLine = false) (hbody : ∀ v ∈ body.head?, v.startsLine = true)
    (h : AtTop isolating (before ++ t :: (line ++ body))) : AtTop isolating body := by
  cases body with
  | nil => exact List.not_mem_nil
  | cons v body =>
    have hends := (exists_program_argument isolating hk hl ht hp hline).2
    have hframes :
        (feedAll isolating (feedAll isolating [] (t :: line)).frames (v :: body)).frames =
          (feedAll isolating [] (v :: body)).frames := by
      rw [feedAll_cons _ _ v, feed_of_endsAtLine hends (hbody v rfl)]
      rfl
    unfold AtTop at h ⊢
    rwa [frames_feedAll_append_called hbefore hs htop hk hl, ← List.cons_append, feedAll_append,
      hframes] at h

/-- **The program of a document with a block.** Two macros at the top that want an argument each,
with lines of their own between them: what stands before them, the first, the block, the second, and
what stands behind. -/
theorem program_block {after : List Token}
    (hstage : Stage.between.after (before ++ t :: (line ++ (body ++ u :: (ending ++ after)))) =
      some q)
    (htop : AtTop isolating before) (htop' : AtTop isolating (before ++ t :: (line ++ body)))
    (hk : t.kind = .macroName) (hl : t.startsLine = true) (ht : t.Wants isolating p)
    (hp : p ≠ .title) (hk' : u.kind = .macroName) (hl' : u.startsLine = true)
    (hu : u.Wants isolating p') (hp' : p' ≠ .title)
    (hline : ∀ v ∈ line, v.startsLine = false) (hbody : ∀ v ∈ body.head?, v.startsLine = true)
    (hending : ∀ v ∈ ending, v.startsLine = false)
    (hafter : ∀ v ∈ after.head?, v.startsLine = true) :
    program isolating (before ++ t :: (line ++ (body ++ u :: (ending ++ after)))) =
      program isolating before ++ (program isolating (t :: line) ++ (program isolating body ++
        (program isolating (u :: ending) ++ program isolating after))) := by
  obtain ⟨s, hbefore, hs, hrest⟩ := Stage.exists_after_of_startsLine hstage hl
  have htopBody := atTop_of_append hbefore hs htop hk hl ht hp hline hbody htop'
  have hnext : ∀ v ∈ (body ++ u :: (ending ++ after)).head?, v.startsLine = true := by
    cases body with
    | nil => simpa using hl'
    | cons v body => exact hbody
  rw [← List.cons_append] at hrest
  obtain ⟨m, -, hrest⟩ := Stage.exists_after_of_append hrest
  obtain ⟨o, hblock, ho⟩ := Stage.exists_after_between hrest hl' hbody
  rw [program_append_argument hbefore hs htop hk hl ht hp hline hnext,
    program_append_argument hblock ho htopBody hk' hl' hu hp' hending hafter]

/-! ## Sorts of instructions that no macro brings -/

/-- A step without a sort of instructions, at once or in store. -/
structure Step.Lacks (P : Instr → Bool) (s : Step) : Prop where
  out : NoneOf P s.out
  frames : ∀ f ∈ s.frames, f.IsFreeOf P

/-- Steps without any of a sort are closed under what comes around text. -/
theorem Step.isClosed_lacks (P : Instr → Bool) :
    Step.IsClosed (fun i => P i = false) (Frame.IsFreeOf P) (Step.Lacks P) where
  above := fun hf h =>
    ⟨h.out, List.forall_mem_append.mpr ⟨h.frames, List.forall_mem_singleton.mpr hf⟩⟩
  preceded := fun hi h => ⟨noneOf_cons.mpr ⟨hi, h.out⟩, h.frames⟩

/-- One token, where a macro would bring no instruction of the sort. -/
theorem feed_lacks (hP : IsSortOfMacros P) (hconsume : ∀ v, P (.consume v) = false)
    (hcall : t.kind = .macroName → (Step.call isolating t).Lacks P)
    (h : ∀ f ∈ stack, f.IsFreeOf P) : (feed isolating stack t).Lacks P :=
  (Step.isClosed_lacks P).feed hP.holdOfText h
    (fun _ _ hout hframes => ⟨noneOf_cons.mpr ⟨hconsume t, hout⟩, hframes⟩) hcall

/-- **Instructions that no macro brings** are not in the program.

**Proof sketch.** Induction on the tokens. Text brings none, and none gets into store. -/
theorem noneOf_program (hP : IsSortOfMacros P) (hconsume : ∀ v, P (.consume v) = false)
    (hcall : ∀ t ∈ ts, t.kind = .macroName → (Step.call isolating t).Lacks P) :
    NoneOf P (program isolating ts) := by
  have hfrom : ∀ stack : List Frame, (∀ f ∈ stack, f.IsFreeOf P) →
      NoneOf P (programFrom isolating stack ts) := by
    induction ts with
    | nil => exact fun stack hstack => finish_noneOf hP hstack
    | cons t ts ih =>
      intro stack hstack
      obtain ⟨ht, hts⟩ := List.forall_mem_cons.mp hcall
      have hfeed := feed_lacks hP hconsume ht hstack
      exact hfeed.out.append (ih hts _ hfeed.frames)
  exact hfrom [] (List.forall_mem_nil _)

end Manpage

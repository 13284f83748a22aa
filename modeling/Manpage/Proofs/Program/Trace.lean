import Manpage.Proofs.Program.Macros

/-!
# The trace of a program

Every token is read once, in its turn, and the instructions of its reading enter it into the trace
once. The only other entries are notes on macros without effect: such a note follows the entry of
its macro at once. A macro that comes to a frame which swallows it, for an argument or as the rest
of a line, is no call and has no note.

This holds of all token lists, whatever the order of the tokens.

## Main definitions

* `Manpage.Instr.entry?`, `Manpage.entriesOf` — what instructions enter into the trace.
* `Manpage.taker?` — the frame that a token comes to.
* `Manpage.isUnknownCall` — a token that calls a macro without effect.
* `Manpage.traceFrom` — the entries of tokens that follow when a stack of frames is left.

## Main results

* `Manpage.feed_enters` — the entries of one token.
* `Manpage.exists_entriesOf_eq_traceFrom` — a first part of a program enters a first part of the
  tokens.
* `Manpage.traceFrom_eq_flatMap` — where macros start their lines, all of them are called.
-/

namespace Manpage

variable {f : Frame} {s : Step} {t : Token} {ts : List Token} {stack : List Frame} {i : Instr}
  {out is js : List Instr} {isolating noted : Bool}

/-! ## Entries -/

/-- What an instruction enters into the trace. -/
def Instr.entry? : Instr → Option TraceEntry
  | .consume t => some (.token t)
  | .note t => some (.skippedMacro t)
  | _ => none

/-- What instructions enter into the trace, in order. -/
def entriesOf (is : List Instr) : List TraceEntry :=
  is.filterMap Instr.entry?

/-- The entries of two rows of instructions are those of the first and those of the second. -/
theorem entriesOf_append (is js : List Instr) :
    entriesOf (is ++ js) = entriesOf is ++ entriesOf js :=
  List.filterMap_append

/-- An instruction that enters something into the trace. -/
def Instr.isEntry (i : Instr) : Bool :=
  i.entry?.isSome

/-- An instruction that is no entry enters nothing. -/
theorem Instr.entry?_eq_none (h : i.isEntry = false) : i.entry? = none :=
  Option.isNone_iff_eq_none.mp (Option.isSome_eq_false_iff.mp h)

/-- Instructions without entries enter nothing. -/
theorem entriesOf_eq_nil (h : NoneOf Instr.isEntry is) : entriesOf is = [] :=
  List.filterMap_eq_nil_iff.mpr fun i hi => Instr.entry?_eq_none (h i hi)

/-- The instructions that enter a token into the trace, with a note where it calls a macro without
effect. -/
def entering (t : Token) (noted : Bool) : List Instr :=
  .consume t :: if noted then [.note t] else []

/-- The entries of a token, with a note where it calls a macro without effect. -/
def Token.entries (t : Token) (noted : Bool) : List TraceEntry :=
  .token t :: if noted then [.skippedMacro t] else []

/-- The instructions that enter a token enter its entries. -/
theorem entriesOf_entering (t : Token) (noted : Bool) :
    entriesOf (entering t noted) = t.entries noted := by
  cases noted <;> rfl

/-- All instructions that enter a token are entries. They are the token, and a note where there is
one. -/
theorem isEntry_of_mem_entering (h : i ∈ entering t noted) : i.isEntry = true := by
  cases noted with
  | false =>
    obtain rfl := List.mem_singleton.mp h
    rfl
  | true =>
    rcases List.mem_pair.mp h with rfl | rfl
    · rfl
    · rfl

/-- Instructions that enter one token, in one place, and nothing else. -/
def Enters (t : Token) (noted : Bool) (out : List Instr) : Prop :=
  ∃ before after, out = before ++ entering t noted ++ after ∧ NoneOf Instr.isEntry before ∧
    NoneOf Instr.isEntry after

namespace Enters

/-- A token is still entered once with an instruction in front that is no entry. -/
theorem cons_left (h : Enters t noted out) (hi : i.isEntry = false) :
    Enters t noted (i :: out) := by
  obtain ⟨before, after, rfl, hbefore, hafter⟩ := h
  refine ⟨i :: before, after, rfl, ?_, hafter⟩
  exact List.forall_mem_cons.mpr ⟨hi, hbefore⟩

/-- A token is still entered once with instructions in front that are no entries. -/
theorem append_left (h : Enters t noted out) (his : NoneOf Instr.isEntry is) :
    Enters t noted (is ++ out) := by
  obtain ⟨before, after, rfl, hbefore, hafter⟩ := h
  exact ⟨is ++ before, after, by simp only [List.append_assoc], his.append hbefore, hafter⟩

/-- A token entered first, and then nothing. -/
theorem consume (t : Token) (h : NoneOf Instr.isEntry out) : Enters t false (.consume t :: out) :=
  ⟨[], out, rfl, noneOf_nil, h⟩

/-- A token that is entered once has its entries and no others. -/
theorem entriesOf_eq (h : Enters t noted out) : entriesOf out = t.entries noted := by
  obtain ⟨before, after, rfl, hbefore, hafter⟩ := h
  rw [entriesOf_append, entriesOf_append, entriesOf_eq_nil hbefore, entriesOf_eq_nil hafter,
    entriesOf_entering, List.nil_append, List.append_nil]

/-- A first part that ends before an instruction which enters nothing has no entry, or all.

**Proof sketch.** By where the instruction stands: before the entries of the token, or behind them.
It cannot stand between them, as these are side by side. -/
theorem entriesOf_left (h : Enters t noted (is ++ i :: js)) (hi : i.isEntry = false) :
    entriesOf is = [] ∨ entriesOf is = t.entries noted := by
  obtain ⟨before, after, heq, hbefore, hafter⟩ := h
  rcases List.append_eq_append_iff.mp heq with ⟨right, hleft, hright⟩ | ⟨right, rfl, hright⟩
  · rcases List.append_eq_append_iff.mp hleft with ⟨left, rfl, hsplit⟩ | ⟨left, rfl, -⟩
    · cases right with
      | nil =>
        rw [List.append_nil] at hsplit
        exact Or.inr (by
          rw [entriesOf_append, entriesOf_eq_nil hbefore, ← hsplit, entriesOf_entering,
            List.nil_append])
      | cons j right =>
        -- the instruction would be one of those that enter the token
        obtain ⟨rfl, -⟩ := List.cons.inj hright
        have hmem : i ∈ entering t noted := by
          rw [hsplit]
          exact List.mem_append_right _ List.mem_cons_self
        exact Bool.noConfusion (hi.symm.trans (isEntry_of_mem_entering hmem))
    · exact Or.inl (entriesOf_eq_nil (noneOf_append.mp hbefore).1)
  · have hnone : NoneOf Instr.isEntry right := by
      rw [hright] at hafter
      exact (noneOf_append.mp hafter).1
    exact Or.inr (Enters.entriesOf_eq ⟨before, right, rfl, hbefore, hnone⟩)

end Enters

/-! ## Arguments -/

/-- Entries are a sort of instructions that only macros bring, besides the entry of the token
itself. -/
theorem isSortOfMacros_isEntry : IsSortOfMacros Instr.isEntry := by
  intro i hi
  cases i with
  | consume | note => exact hi.elim Bool.noConfusion Bool.noConfusion
  | _ => rfl

/-- The argument of a macro enters nothing. -/
theorem Purpose.settle_noEntry (p : Purpose) (t : Token) (argument : Option Text) :
    NoneOf Instr.isEntry ((p.settle t argument).1 ++ (p.settle t argument).2) := by
  refine (p.settle_fst_noneOf isSortOfMacros_isEntry t argument).append ?_
  cases p <;> simp [settle, Instr.isEntry, Instr.entry?]

/-! ## Steps -/

/-- A token that has the name of no macro, where it is one by its kind. -/
def Token.isUnknownMacro (t : Token) : Bool :=
  t.kind == .macroName && (Macro.ofName? t.value).isNone

/-- The name of a macro is unknown just if there is no macro of that name. -/
theorem Token.isUnknownMacro_of_kind (h : t.kind = .macroName) :
    t.isUnknownMacro = (Macro.ofName? t.value).isNone := by
  simp [isUnknownMacro, h]

/-- A token other than the name of a macro is no unknown macro. -/
theorem Token.isUnknownMacro_of_ne (h : t.kind ≠ .macroName) : t.isUnknownMacro = false := by
  simp [isUnknownMacro, h]

/-- A step that enters a token, with a note or without one, and leaves no entry in store. -/
structure Step.Enters (s : Step) (t : Token) (noted : Bool) : Prop where
  out : Manpage.Enters t noted s.out
  frames : ∀ f ∈ s.frames, f.IsFreeOf Instr.isEntry

namespace Step

/-- A token entered first, without a note, and frames without an entry in store. -/
theorem enters_consume {frames : List Frame} (hout : NoneOf Instr.isEntry out)
    (hframes : ∀ f ∈ frames, f.IsFreeOf Instr.isEntry) :
    Step.Enters ⟨.consume t :: out, frames⟩ t false :=
  ⟨Manpage.Enters.consume t hout, hframes⟩

/-- A step still enters its token once above a frame without entries in store. -/
theorem Enters.above (h : s.Enters t noted) (hf : f.IsFreeOf Instr.isEntry) :
    (s.above f).Enters t noted := by
  refine ⟨h.out, fun g hg => ?_⟩
  rcases List.mem_append.mp hg with hg | hg
  · exact h.frames g hg
  · obtain rfl := List.mem_singleton.mp hg
    exact hf

/-- A step still enters its token once behind an instruction that is no entry. -/
theorem Enters.preceded (h : s.Enters t noted) (hi : i.isEntry = false) :
    (s.preceded i).Enters t noted :=
  ⟨h.out.cons_left hi, h.frames⟩

/-- The call of a macro has a note where the macro is unknown. No frame that it leaves has an entry
in store. -/
theorem call_enters (isolating : Bool) (t : Token) :
    (call isolating t).Enters t (Macro.ofName? t.value).isNone := by
  unfold call
  split
  all_goals rename_i hname; rw [hname]
  case h_17 =>
    exact ⟨⟨[], [.warn (.unknownMacro t.value) t], rfl, noneOf_nil,
      by simp [Instr.isEntry, Instr.entry?]⟩, by simp⟩
  case h_2 =>
    split <;> refine enters_consume ?_ ?_ <;>
      simp [Instr.isEntry, Instr.entry?, Frame.IsFreeOf, Purpose.settle_noEntry]
  all_goals
    refine enters_consume ?_ ?_ <;>
      simp [Instr.isEntry, Instr.entry?, Frame.IsFreeOf, Purpose.settle_noEntry]

/-- Steps that enter a token once are closed under what comes around text. -/
theorem isClosed_enters (t : Token) (noted : Bool) :
    IsClosed (fun i => i.isEntry = false) (Frame.IsFreeOf Instr.isEntry)
      (Step.Enters · t noted) :=
  ⟨fun hf h => h.above hf, fun hi h => h.preceded hi⟩

/-- A token that is taken with instructions of text is entered once, without a note. -/
theorem takesFreely_enters (t : Token) :
    TakesFreely (fun i => i.isEntry = false) (Frame.IsFreeOf Instr.isEntry)
      (Step.Enters · t false) t :=
  fun _ _ hout hframes => enters_consume hout hframes

/-- A token at the empty stack has a note where it is an unknown macro. -/
theorem top_enters (isolating : Bool) (t : Token) :
    (top isolating t).Enters t t.isUnknownMacro := by
  refine (isClosed_enters t _).top isSortOfMacros_isEntry.holdOfText (fun hk => ?_) fun hk => ?_
  · rw [Token.isUnknownMacro_of_ne hk]
    exact takesFreely_enters t
  · rw [Token.isUnknownMacro_of_kind hk]
    exact call_enters isolating t

end Step

/-- What a frame enters of a token: the token, with a note on a macro that the frame does not
swallow. -/
theorem Frame.react_enters (isolating : Bool) (hf : f.IsFreeOf Instr.isEntry) (t : Token) :
    (f.react isolating t).Has (fun i => i.isEntry = false)
      (Step.Enters · t (t.isUnknownMacro && !f.swallows)) := by
  refine (Step.isClosed_enters t _).react isSortOfMacros_isEntry.holdOfText hf (fun h => ?_)
    fun hk hs => ?_
  · have hnoted : (t.isUnknownMacro && !f.swallows) = false := by
      rcases h with hk | hs
      · rw [Token.isUnknownMacro_of_ne hk, Bool.false_and]
      · rw [hs, Bool.not_true, Bool.and_false]
    rw [hnoted]
    exact Step.takesFreely_enters t
  · rw [Token.isUnknownMacro_of_kind hk, hs, Bool.not_false, Bool.and_true]
    exact Step.call_enters isolating t

/-! ## Tokens -/

/-- The frame that a token comes to, the innermost that does not pass it on. -/
def taker? (isolating : Bool) (t : Token) : List Frame → Option Frame
  | [] => none
  | f :: below =>
    match f.react isolating t with
    | .take _ => some f
    | .pass _ => taker? isolating t below

/-- A token that calls a macro without effect: one that has the name of no macro, and comes to no
frame that takes it without showing it. -/
def isUnknownCall (isolating : Bool) (stack : List Frame) (t : Token) : Bool :=
  t.isUnknownMacro && !(taker? isolating t stack).any Frame.swallows

/-- **The entries of one token**: the token, and a note where it calls a macro without effect.

**Proof sketch.** Induction on the stack, as far as the frame that takes the token. -/
theorem feed_enters (isolating : Bool) (h : ∀ f ∈ stack, f.IsFreeOf Instr.isEntry) (t : Token) :
    (feed isolating stack t).Enters t (isUnknownCall isolating stack t) := by
  induction stack with
  | nil =>
    have hcall : isUnknownCall isolating [] t = t.isUnknownMacro := by
      simp [isUnknownCall, taker?]
    rw [hcall]
    exact Step.top_enters isolating t
  | cons f below ih =>
    have hbelow : ∀ g ∈ below, g.IsFreeOf Instr.isEntry := fun g hg =>
      h g (List.mem_cons_of_mem f hg)
    have hreact := Frame.react_enters isolating (h f List.mem_cons_self) t
    have htaker := ih hbelow
    unfold isUnknownCall at htaker ⊢
    simp only [feed, taker?]
    cases hr : f.react isolating t with
    | take s =>
      rw [hr] at hreact
      refine ⟨hreact.out, fun g hg => ?_⟩
      rcases List.mem_append.mp hg with hg | hg
      · exact hreact.frames g hg
      · exact hbelow g hg
    | pass out =>
      rw [hr] at hreact
      exact ⟨htaker.out.append_left hreact, htaker.frames⟩

/-! ## Programs -/

/-- The entries of the tokens that follow when a stack of frames is left. -/
def traceFrom (isolating : Bool) (stack : List Frame) : List Token → List TraceEntry
  | [] => []
  | t :: ts =>
    t.entries (isUnknownCall isolating stack t) ++
      traceFrom isolating (feed isolating stack t).frames ts

/-- **A first part of a program enters a first part of the tokens**, where an instruction comes next
that enters nothing.

**Proof sketch.** Induction on the tokens. The instruction stands among those of the first token,
before or behind its entries, or among those of the others. -/
theorem exists_entriesOf_eq_traceFrom (h : ∀ f ∈ stack, f.IsFreeOf Instr.isEntry)
    (hprogram : programFrom isolating stack ts = is ++ i :: js) (hi : i.isEntry = false) :
    ∃ read, read <+: ts ∧ entriesOf is = traceFrom isolating stack read := by
  induction ts generalizing stack is with
  | nil =>
    have hfinish := finish_noneOf isSortOfMacros_isEntry h
    change finish stack = _ at hprogram
    rw [hprogram] at hfinish
    exact ⟨[], List.nil_prefix, entriesOf_eq_nil (noneOf_append.mp hfinish).1⟩
  | cons t ts ih =>
    have hfeed := feed_enters isolating h t
    rcases List.append_eq_append_iff.mp hprogram with ⟨is', rfl, hmore⟩ | ⟨js', hout, hmore⟩
    · obtain ⟨read, hread, heq⟩ := ih hfeed.frames hmore
      refine ⟨t :: read, List.cons_prefix_cons.mpr ⟨rfl, hread⟩, ?_⟩
      rw [entriesOf_append, hfeed.out.entriesOf_eq, heq, traceFrom]
    · have hone : traceFrom isolating stack [t] = t.entries (isUnknownCall isolating stack t) := by
        simp only [traceFrom, List.append_nil]
      cases js' with
      | nil =>
        rw [List.append_nil] at hout
        refine ⟨[t], List.cons_prefix_cons.mpr ⟨rfl, List.nil_prefix⟩, ?_⟩
        rw [← hout, hfeed.out.entriesOf_eq, hone]
      | cons j js' =>
        obtain ⟨rfl, -⟩ := List.cons.inj hmore
        have hout' := hfeed.out
        rw [hout] at hout'
        rcases hout'.entriesOf_left hi with hnil | hall
        · exact ⟨[], List.nil_prefix, hnil⟩
        · exact ⟨[t], List.cons_prefix_cons.mpr ⟨rfl, List.nil_prefix⟩, hall.trans hone.symm⟩

/-- A whole program enters all tokens. -/
theorem entriesOf_programFrom (h : ∀ f ∈ stack, f.IsFreeOf Instr.isEntry) :
    entriesOf (programFrom isolating stack ts) = traceFrom isolating stack ts := by
  induction ts generalizing stack with
  | nil => exact entriesOf_eq_nil (finish_noneOf isSortOfMacros_isEntry h)
  | cons t ts ih =>
    have hfeed := feed_enters isolating h t
    rw [programFrom, entriesOf_append, hfeed.out.entriesOf_eq, ih hfeed.frames, traceFrom]

/-! ## Reading a trace -/

/-- A note on a macro without effect. -/
def TraceEntry.isNote : TraceEntry → Bool
  | token _ => false
  | skippedMacro _ => true

/-- Without its notes, a trace has the tokens, each of them once and in order. By induction on the
tokens, each of which has one entry and one note at most. -/
theorem filter_traceFrom (isolating : Bool) (stack : List Frame) (ts : List Token) :
    (traceFrom isolating stack ts).filter (fun e => !e.isNote) = ts.map .token := by
  induction ts generalizing stack with
  | nil => rfl
  | cons t ts ih =>
    have hentries : ∀ noted, (t.entries noted).filter (fun e => !e.isNote) = [.token t] := by
      intro noted
      cases noted <;> rfl
    rw [traceFrom, List.filter_append, hentries, ih, List.map_cons, List.singleton_append]

/-- A frame that swallows tokens passes on a macro that starts its line. -/
theorem Frame.exists_react_eq_pass (isolating : Bool) (hf : f.swallows = true)
    (hk : t.kind = .macroName) (hl : t.startsLine = true) :
    ∃ out, f.react isolating t = .pass out := by
  cases f with
  | restOfLine | argument | bareArgument | quotedArgument | titleLine =>
    simp [react, hk, hl]
  | _ => exact Bool.noConfusion hf

/-- A macro that starts its line is called. No frame swallows the start of a line, so that the macro
is called wherever it comes. -/
theorem isUnknownCall_of_startsLine (isolating : Bool) (stack : List Frame)
    (h : t.kind = .macroName → t.startsLine = true) :
    isUnknownCall isolating stack t = t.isUnknownMacro := by
  by_cases hk : t.kind = .macroName
  · have htaker : (taker? isolating t stack).any Frame.swallows = false := by
      induction stack with
      | nil => rfl
      | cons f below ih =>
        simp only [taker?]
        cases hr : f.react isolating t with
        | pass out => exact ih
        | take s =>
          refine Bool.eq_false_iff.mpr fun hf => ?_
          obtain ⟨out, hpass⟩ := f.exists_react_eq_pass isolating hf hk (h hk)
          exact absurd (hr.symm.trans hpass) (by simp)
    rw [isUnknownCall, htaker, Bool.not_false, Bool.and_true]
  · rw [isUnknownCall, Token.isUnknownMacro_of_ne hk, Bool.false_and]

/-- **Where macros start their lines, all of them are called**: the trace of such tokens has a note
behind every macro without a name, whatever stands around it. -/
theorem traceFrom_eq_flatMap (isolating : Bool) (stack : List Frame)
    (hts : ∀ t ∈ ts, t.kind = .macroName → t.startsLine = true) :
    traceFrom isolating stack ts = ts.flatMap fun t => t.entries t.isUnknownMacro := by
  induction ts generalizing stack with
  | nil => rfl
  | cons t ts ih =>
    rw [traceFrom, isUnknownCall_of_startsLine isolating stack (hts t List.mem_cons_self),
      ih _ fun u hu => hts u (List.mem_cons_of_mem t hu), List.flatMap_cons]

end Manpage

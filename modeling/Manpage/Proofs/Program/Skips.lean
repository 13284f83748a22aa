import Manpage.Proofs.Program.Macros

/-!
# Requests for empty lines

A program asks for several empty lines only where a macro asks for them, and for as many as its
argument says. It asks for lines to be kept as they are only where a macro does.

## Main definitions

* `Manpage.skipCount` — the number of empty lines that a macro asks for.
* `Manpage.Instr.isRequested`, `Manpage.IsRequestedBy` — the instructions for such requests, and
  the tokens that they come from.
* `Manpage.Frame.Awaits` — a frame that has a request in store.

## Main results

* `Manpage.isRequestedBy_of_mem_program` — every request in a program comes from a macro.
-/

namespace Manpage

variable {S : Instr → Prop} {f g : Frame} {s : Step} {t : Token} {ts : List Token} {i : Instr}
  {stack below : List Frame} {isolating : Bool}

/-! ## Requests -/

/-- The number of empty lines that an argument asks for: its whole part, if that is positive, and
else the default. -/
def skipCountOf (argument : Option Text) : Nat :=
  match (argument.bind Numeral.ofText?).bind Numeral.toInt? with
  | some n => if 0 < n then n.toNat else defaultSkip
  | none => defaultSkip

/-- The number of empty lines that a macro asks for which these tokens follow. -/
def skipCount (ts : List Token) : Nat :=
  skipCountOf (Token.argument? ts)

/-- The number of empty lines that is read is the one that the argument asks for. Both read the same
number, and take the default where it is missing or not positive. -/
theorem readSkip_snd (t : Token) (argument : Option Text) :
    (readSkip t argument).2 = skipCountOf argument := by
  cases argument with
  | none => rfl
  | some text =>
    simp only [readSkip, readNumber, skipCountOf, Option.bind_some]
    cases hx : Numeral.ofText? text with
    | none => rfl
    | some x =>
      cases hn : x.toInt? with
      | none => simp [hn]
      | some n =>
        simp only [hn, Option.bind_some]
        split <;> rfl

/-- An instruction that leaves several empty lines, or has lines kept as they are. -/
def Instr.isRequested : Instr → Bool
  | .skipLines _ | .setNoFill true => true
  | _ => false

/-- Requests are a sort of instructions that only macros bring. -/
theorem isSortOfMacros_isRequested : IsSortOfMacros Instr.isRequested := by
  intro i hi
  cases i with
  | skipLines | setNoFill => exact hi.elim Bool.noConfusion Bool.noConfusion
  | _ => rfl

/-- A request that a macro among the tokens makes. -/
def IsRequestedBy (ts : List Token) (i : Instr) : Prop :=
  ∃ before t after, ts = before ++ t :: after ∧
    (t.called? = some .skip ∧ i = .skipLines (skipCount after) ∨
      t.called? = some .noFill ∧ i = .setNoFill true)

/-- What a macro among tokens requests is requested by more tokens too. -/
theorem IsRequestedBy.cons (h : IsRequestedBy ts i) (t : Token) : IsRequestedBy (t :: ts) i := by
  obtain ⟨before, u, after, rfl, hi⟩ := h
  exact ⟨t :: before, u, after, rfl, hi⟩

/-! ## Frames with a request in store -/

/-- Instructions all of whose requests are in a set. -/
def RequestsIn (S : Instr → Prop) (out : List Instr) : Prop :=
  ∀ i ∈ out, i.isRequested = true → S i

/-- Where nothing is requested, all requests are justified. -/
theorem RequestsIn.of_noneOf {out : List Instr} (h : NoneOf Instr.isRequested out) :
    RequestsIn S out :=
  fun i hi hreq => Bool.noConfusion ((h i hi).symm.trans hreq)

/-- Two rows of instructions whose requests are justified are so together. -/
theorem RequestsIn.append {out more : List Instr} (h : RequestsIn S out) (h' : RequestsIn S more) :
    RequestsIn S (out ++ more) :=
  List.forall_mem_append.mpr ⟨h, h'⟩

/-- A frame whose requests are in a set, where these tokens follow. -/
def Frame.Awaits (S : Instr → Prop) (ts : List Token) : Frame → Prop
  | .argument .skip _ => S (.skipLines (skipCountOf (Token.firstArgument? (Token.restOfLine ts))))
  | .bareArgument .skip _ text =>
    S (.skipLines (skipCountOf (some (text ++
      Token.valueOf ((Token.restOfLine ts).takeWhile fun u => u.kind ≠ .blank)))))
  | .quotedArgument .skip _ text =>
    S (.skipLines (skipCountOf (some (text ++
      Token.valueOf ((Token.restOfLine ts).takeWhile fun u => u.kind ≠ .quote)))))
  | .restOfLine out => RequestsIn S out
  | _ => False

/-- A stack without a request in store but that of the innermost frame. -/
def Owes (S : Instr → Prop) (ts : List Token) (stack : List Frame) : Prop :=
  (∀ f ∈ stack, f.IsFreeOf Instr.isRequested) ∨
    ∃ f below, stack = f :: below ∧ f.Awaits S ts ∧ ∀ g ∈ below, g.IsFreeOf Instr.isRequested

/-- A token that starts no line belongs to the rest of the line. -/
theorem restOfLine_cons (hl : t.startsLine = false) :
    Token.restOfLine (t :: ts) = t :: Token.restOfLine ts := by
  simp [Token.restOfLine, hl]

/-- A token that starts a line ends the rest of the line before it. -/
theorem restOfLine_cons_of_startsLine (hl : t.startsLine = true) :
    Token.restOfLine (t :: ts) = [] := by
  simp [Token.restOfLine, hl]

/-- The request for an argument of the macro that asks for empty lines. -/
theorem requestsIn_settle {argument : Option Text} (h : S (.skipLines (skipCountOf argument)))
    (t : Token) : RequestsIn S (Purpose.skip.settle t argument).2 := by
  intro i hi _
  obtain rfl : i = .skipLines (readSkip t argument).2 := by simpa [Purpose.settle] using hi
  rwa [readSkip_snd]

/-- What the argument of the macro for empty lines is put to requests what the argument asks for,
and nothing else. -/
theorem requestsIn_settle_append {argument : Option Text}
    (h : S (.skipLines (skipCountOf argument))) (t : Token) :
    RequestsIn S ((Purpose.skip.settle t argument).1 ++ (Purpose.skip.settle t argument).2) :=
  have hnone := Purpose.settle_fst_noneOf isSortOfMacros_isRequested .skip t argument
  (RequestsIn.of_noneOf hnone).append (requestsIn_settle h t)

/-- At the end, the request comes. No tokens are left, so what is gathered is the argument. -/
theorem Frame.Awaits.atEnd (h : f.Awaits S []) : RequestsIn S f.atEnd := by
  cases f with
  | restOfLine out => exact h
  | argument p caller =>
    cases p with
    | skip => exact requestsIn_settle_append h caller
    | _ => exact False.elim h
  | bareArgument p caller text | quotedArgument p caller text =>
    cases p with
    | skip =>
      have htext : S (.skipLines (skipCountOf (some text))) := by
        simpa [Awaits, Token.restOfLine] using h
      exact requestsIn_settle_append htext caller
    | _ => exact False.elim h
  | _ => exact False.elim h

/-- At the start of a line nothing more is to come. -/
theorem Frame.awaits_of_startsLine (hl : t.startsLine = true) :
    f.Awaits S (t :: ts) ↔ f.Awaits S [] := by
  unfold Frame.Awaits
  rw [restOfLine_cons_of_startsLine hl]
  rfl

/-- A frame that has a request in store shows no tokens. -/
theorem Frame.Awaits.swallows (h : f.Awaits S ts) : f.swallows = true := by
  cases f with
  | restOfLine | argument | bareArgument | quotedArgument => rfl
  | _ => exact False.elim h

/-- A frame that goes on has the same request in store, for an argument of which more is read.

**Proof sketch.** By cases on how it goes on. More of an argument is what is left to be read of it;
frames that are not of a request have nothing in store. -/
theorem Frame.Awaits.goesOn (h : f.Awaits S (t :: ts)) (hl : t.startsLine = false)
    (hg : f.GoesOn t g) : g.Awaits S ts := by
  cases hg with
  | rest => exact h
  | skip f hf hk =>
    cases f with
    | argument p caller =>
      cases p with
      | skip =>
        -- a blank before the argument does not change what the argument is
        simp only [Awaits, restOfLine_cons hl, Token.firstArgument?, if_pos hk] at h
        exact h
      | _ => exact False.elim h
    | restOfLine | bareArgument | quotedArgument => exact Bool.noConfusion hf
    | _ => exact False.elim h
  | bare p caller hb hq =>
    cases p with
    | skip =>
      simp only [Awaits, restOfLine_cons hl, Token.firstArgument?, if_neg hb, if_neg hq] at h
      exact h
    | _ => exact False.elim h
  | quote p caller hq =>
    cases p with
    | skip =>
      have hb : t.kind ≠ .blank := by simp [hq]
      simp only [Awaits, restOfLine_cons hl, Token.firstArgument?, if_neg hb, if_pos hq] at h
      exact h
    | _ => exact False.elim h
  | moreBare p caller text hb =>
    cases p with
    | skip =>
      simp only [Awaits, restOfLine_cons hl] at h
      -- the token is added to the text that is gathered and taken off the rest of the line
      rwa [List.takeWhile_cons_of_pos (by simpa using hb), Token.valueOf_cons,
        ← List.append_assoc] at h
    | _ => exact False.elim h
  | moreQuoted p caller text hq =>
    cases p with
    | skip =>
      simp only [Awaits, restOfLine_cons hl] at h
      rwa [List.takeWhile_cons_of_pos (by simpa using hq), Token.valueOf_cons,
        ← List.append_assoc] at h
    | _ => exact False.elim h
  | moreTitle | opened => exact False.elim h

/-- A frame with a request in store passes the start of a line on with the request, and goes on
having it in store up to that.

**Proof sketch.** By cases on the outcome. Only frames that show no tokens have a request in store,
and the blank or the quote behind an argument settles how many lines it asks for. -/
theorem Frame.Awaits.react (isolating : Bool) (h : f.Awaits S (t :: ts)) :
    (∃ out, f.react isolating t = .pass out ∧ RequestsIn S out) ∨
      ∃ out g, f.react isolating t = .take ⟨out, [g]⟩ ∧ NoneOf Instr.isRequested out ∧
        g.Awaits S ts := by
  have hconsume : NoneOf Instr.isRequested [.consume t] := noneOf_cons.mpr ⟨rfl, noneOf_nil⟩
  have hfirst : ∀ caller argument,
      NoneOf Instr.isRequested (Purpose.skip.settle caller argument).1 :=
    Purpose.settle_fst_noneOf isSortOfMacros_isRequested .skip
  have hs := h.swallows
  have hout := f.outcome_react isolating t
  generalize f.react isolating t = r at hout ⊢
  cases hout with
  | complete f hl => exact Or.inl ⟨_, rfl, ((awaits_of_startsLine (hl (Or.inl hs))).mp h).atEnd⟩
  | goesOn f g hl hg => exact Or.inr ⟨_, g, rfl, hconsume, h.goesOn hl hg⟩
  | bare p caller text hl hk =>
    cases p with
    | skip =>
      simp only [Awaits, restOfLine_cons hl] at h
      rw [List.takeWhile_cons_of_neg (by simpa using hk), Token.valueOf_nil, List.append_nil] at h
      exact Or.inr ⟨_, _, rfl, (hfirst _ _).append hconsume, requestsIn_settle h caller⟩
    | _ => exact False.elim h
  | quote p caller text hl hk =>
    cases p with
    | skip =>
      simp only [Awaits, restOfLine_cons hl] at h
      rw [List.takeWhile_cons_of_neg (by simpa using hk), Token.valueOf_nil, List.append_nil] at h
      exact Or.inr ⟨_, _, rfl, noneOf_cons.mpr ⟨rfl, hfirst _ _⟩, requestsIn_settle h caller⟩
    | _ => exact False.elim h
  | close f hf => rcases hf with ⟨rfl, -⟩ | ⟨rfl, -⟩ <;> exact Bool.noConfusion hs
  | line f hf => rcases hf with rfl | rfl | rfl <;> exact Bool.noConfusion hs
  | word f hf => rcases hf with rfl | rfl <;> exact Bool.noConfusion hs
  | arguments f first hf => rcases hf with rfl | ⟨rfl, -⟩ <;> exact Bool.noConfusion hs
  | argument f u bracketed hf => rcases hf with ⟨rfl, -⟩ | rfl <;> exact Bool.noConfusion hs
  | _ => exact False.elim h

/-! ## Steps -/

/-- A step that makes no request, and leaves none but those in a set. -/
structure Step.Owes (S : Instr → Prop) (ts : List Token) (s : Step) : Prop where
  out : NoneOf Instr.isRequested s.out
  frames : Manpage.Owes S ts s.frames

/-- A stack still owes what it does with frames below it that owe nothing. -/
theorem Owes.append (h : Owes S ts stack) (hbelow : ∀ f ∈ below, f.IsFreeOf Instr.isRequested) :
    Owes S ts (stack ++ below) := by
  rcases h with hfree | ⟨f, fs, rfl, hf, hfs⟩
  · exact Or.inl (List.forall_mem_append.mpr ⟨hfree, hbelow⟩)
  · exact Or.inr ⟨f, fs ++ below, rfl, hf, List.forall_mem_append.mpr ⟨hfs, hbelow⟩⟩

/-- Steps that owe no more than is justified are closed under what comes around text. -/
theorem Step.isClosed_owes (S : Instr → Prop) (ts : List Token) :
    Step.IsClosed (fun i => i.isRequested = false) (Frame.IsFreeOf Instr.isRequested)
      (Step.Owes S ts) where
  above := fun hf h => ⟨h.out, h.frames.append (by simpa using hf)⟩
  preceded := fun hi h => ⟨noneOf_cons.mpr ⟨hi, h.out⟩, h.frames⟩

/-- The arguments of other macros make no request. -/
theorem Purpose.settle_notRequested {p : Purpose} (hp : p ≠ .skip) (t : Token)
    (argument : Option Text) :
    NoneOf Instr.isRequested ((p.settle t argument).1 ++ (p.settle t argument).2) := by
  refine (p.settle_fst_noneOf isSortOfMacros_isRequested t argument).append ?_
  cases p with
  | skip => exact absurd rfl hp
  | _ => simp [settle, Instr.isRequested]

/-- The call of a macro leaves the request that it makes.

**Proof sketch.** By the macros. The one for empty lines leaves its argument, from which the number
will be read, and the one for lines as they are stores its request. The others leave none. -/
theorem Step.call_owes (isolating : Bool) (hk : t.kind = .macroName)
    (hS : ∀ i, IsRequestedBy (t :: ts) i → S i) : (call isolating t).Owes S ts := by
  have hcalled := Token.called?_of_kind hk
  have hfree : ∀ {out frames}, NoneOf Instr.isRequested out →
      (∀ f ∈ frames, f.IsFreeOf Instr.isRequested) → Step.Owes S ts ⟨out, frames⟩ :=
    fun hout hframes => ⟨hout, Or.inl hframes⟩
  unfold call
  split
  case h_4 hname =>
    refine ⟨by simp [Instr.isRequested], Or.inr ⟨_, [], rfl, ?_, by simp⟩⟩
    exact hS _ ⟨[], t, ts, rfl, Or.inl ⟨hcalled.trans hname, rfl⟩⟩
  case h_6 hname =>
    refine ⟨by simp [Instr.isRequested], Or.inr ⟨_, [], rfl, ?_, by simp⟩⟩
    intro i hi hreq
    rcases List.mem_pair.mp hi with rfl | rfl
    · exact Bool.noConfusion hreq
    · exact hS _ ⟨[], t, ts, rfl, Or.inr ⟨hcalled.trans hname, rfl⟩⟩
  case h_2 =>
    split <;> apply hfree <;>
      simp [Instr.isRequested, Frame.IsFreeOf, Purpose.settle_notRequested]
  all_goals
    apply hfree <;> simp [Instr.isRequested, Frame.IsFreeOf, Purpose.settle_notRequested]

/-- One token read with a stack that has no request in store. -/
theorem feed_owes_of_free (isolating : Bool) (h : ∀ f ∈ stack, f.IsFreeOf Instr.isRequested)
    (hS : ∀ i, IsRequestedBy (t :: ts) i → S i) : (feed isolating stack t).Owes S ts :=
  (Step.isClosed_owes S ts).feed isSortOfMacros_isRequested.holdOfText h
    (fun _ _ hout hframes => ⟨noneOf_cons.mpr ⟨rfl, hout⟩, Or.inl hframes⟩)
    fun hk => Step.call_owes isolating hk hS

/-- One token read with a stack that has one request in store at most. The frame that owes the
request goes on or pays, and the others owe none. -/
theorem feed_owes (isolating : Bool) (h : Owes S (t :: ts) stack)
    (hS : ∀ i, IsRequestedBy (t :: ts) i → S i) :
    RequestsIn S (feed isolating stack t).out ∧ Owes S ts (feed isolating stack t).frames := by
  rcases h with hfree | ⟨f, below, rfl, hf, hbelow⟩
  · have hfeed := feed_owes_of_free isolating hfree hS
    exact ⟨RequestsIn.of_noneOf hfeed.out, hfeed.frames⟩
  · have hfeed := feed_owes_of_free isolating hbelow hS
    rcases hf.react isolating with ⟨out, hreact, hout⟩ | ⟨out, g, hreact, hout, hg⟩
    · simp only [feed, hreact]
      exact ⟨hout.append (RequestsIn.of_noneOf hfeed.out), hfeed.frames⟩
    · simp only [feed, hreact]
      exact ⟨RequestsIn.of_noneOf hout, Or.inr ⟨g, below, rfl, hg, hbelow⟩⟩

/-! ## Programs -/

/-- The requests of a program are those of its tokens, and the one in store.

**Proof sketch.** Induction on the tokens. A request goes into store when a macro is called, and its
number depends on the tokens that are still to come on the line of the macro. -/
theorem requestsIn_programFrom (isolating : Bool) (h : Owes S ts stack)
    (hS : ∀ i, IsRequestedBy ts i → S i) : RequestsIn S (programFrom isolating stack ts) := by
  induction ts generalizing stack with
  | nil =>
    rcases h with hfree | ⟨f, below, rfl, hf, hbelow⟩
    · exact RequestsIn.of_noneOf (finish_noneOf isSortOfMacros_isRequested hfree)
    · exact hf.atEnd.append
        (RequestsIn.of_noneOf (finish_noneOf isSortOfMacros_isRequested hbelow))
  | cons t ts ih =>
    obtain ⟨hout, hframes⟩ := feed_owes isolating h hS
    exact hout.append (ih hframes fun i hi => hS i (hi.cons t))

/-- **Every request in a program comes from a macro**, with the number that its argument says. -/
theorem isRequestedBy_of_mem_program (hi : i ∈ program isolating ts) (hreq : i.isRequested = true) :
    IsRequestedBy ts i :=
  requestsIn_programFrom isolating (Or.inl (List.forall_mem_nil _)) (fun _ h => h) i hi hreq

end Manpage

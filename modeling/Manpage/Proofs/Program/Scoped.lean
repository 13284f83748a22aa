import Manpage.Proofs.Program.Handler

/-!
# Headings and fonts by turns as scopes

A heading opens the scope of a style, and what belongs to it closes that scope. Of fonts by turns,
every argument has a scope of its own. Within such a scope anything may come: words and tags, which
are scopes themselves, font escapes, other macros. Outside of it no font is selected and no scope of
another kind is opened or closed. That holds of any tokens, also where macros stand in the middle of
lines and escapes are incomplete.

The depth counts the scopes that are open within a macro.

## Main definitions

* `Manpage.depthAfter` — the depth after instructions that select fonts within scopes only.
* `Manpage.Leads` — frames that lead from one depth to another.
* `Manpage.Macro.isScoped` — the macros that have styles of their own.

## Main results

* `Manpage.Frame.react_leads` — a frame leads to the same depth, whatever token comes.
* `Manpage.depthAfter_complete` — so do frames until they are complete.
* `Manpage.depthAfter_handler` — what belongs to such a macro leaves no scope open.
-/

namespace Manpage

variable {f g : Frame} {i : Instr} {s : Step} {t : Token} {ts : List Token} {is js out : List Instr}
  {fs below : List Frame} {isolating : Bool} {n k m : Nat}

/-! ## Depths -/

/-- The depth after an instruction. At depth zero only a style may be opened, and no font may be
selected. -/
def Instr.depthAfter (n : Nat) : Instr → Option Nat
  | .openStyle _ => some (n + 1)
  | .openWord | .openTag _ => if n = 0 then none else some (n + 1)
  | .closeScope => if n = 0 then none else some (n - 1)
  | .setStyle _ _ | .plainStyle => if n = 0 then none else some n
  | _ => some n

/-- The depth after instructions. -/
def depthAfter (n : Nat) : List Instr → Option Nat
  | [] => some n
  | i :: is => (i.depthAfter n).bind fun k => depthAfter k is

/-- No instructions leave the depth as it is. -/
@[simp] theorem depthAfter_nil (n : Nat) : depthAfter n [] = some n := rfl

/-- The depth changes with one instruction after another. -/
@[simp] theorem depthAfter_cons (n : Nat) (i : Instr) (is : List Instr) :
    depthAfter n (i :: is) = (i.depthAfter n).bind fun k => depthAfter k is := rfl

/-- The depth behind two rows of instructions is that of the second, from the depth behind the first
on. -/
theorem depthAfter_append (n : Nat) (is js : List Instr) :
    depthAfter n (is ++ js) = (depthAfter n is).bind fun k => depthAfter k js := by
  induction is generalizing n with
  | nil => rfl
  | cons i is ih =>
    rw [List.cons_append, depthAfter_cons, depthAfter_cons, Option.bind_assoc]
    exact Option.bind_congr fun k _ => ih k

/-- Depths behind two rows of instructions are put together. -/
theorem depthAfter_append_of_eq (h : depthAfter n is = some k) (h' : depthAfter k js = some m) :
    depthAfter n (is ++ js) = some m := by
  rw [depthAfter_append, h, Option.bind_some, h']

/-- Instructions each of which keeps the depth. -/
theorem depthAfter_of_forall (h : ∀ i ∈ is, i.depthAfter n = some n) :
    depthAfter n is = some n := by
  induction is with
  | nil => rfl
  | cons i is ih =>
    obtain ⟨hi, his⟩ := List.forall_mem_cons.mp h
    rw [depthAfter_cons, hi, Option.bind_some, ih his]

/-! ## Arguments -/

/-- Reading a number leaves the depth as it is. -/
theorem readNumber_depthAfter (t : Token) (argument : Text) (n : Nat) :
    depthAfter n (readNumber t argument).1 = some n := by
  unfold readNumber
  split
  · rfl
  · split <;> rfl

/-- Reading an amount leaves the depth as it is. -/
theorem readAmount_depthAfter (t : Token) (argument : Option Text) (n : Nat) :
    depthAfter n (readAmount t argument).1 = some n := by
  cases argument with
  | none => rfl
  | some text => exact readNumber_depthAfter t text n

/-- Reading a number of empty lines leaves the depth as it is. It sends out warnings and faults
only. -/
theorem readSkip_depthAfter (t : Token) (argument : Option Text) (n : Nat) :
    depthAfter n (readSkip t argument).1 = some n := by
  cases argument with
  | none => rfl
  | some text =>
    have hnumber := readNumber_depthAfter t text n
    simp only [readSkip]
    split
    · exact hnumber
    · split
      · exact hnumber
      · exact depthAfter_append_of_eq hnumber rfl

/-- The instructions for an argument at once keep the depth. -/
theorem Purpose.depthAfter_settle_fst (p : Purpose) (t : Token) (argument : Option Text)
    (n : Nat) : depthAfter n (p.settle t argument).1 = some n := by
  cases p with
  | skip => exact readSkip_depthAfter t argument n
  | title => rfl
  | tag | mark | indent | openMargin | closeMargin => exact readAmount_depthAfter t argument n

/-- The instructions at the end of the line lead to a depth that the argument has no say in. -/
theorem Purpose.depthAfter_settle_snd (p : Purpose) (t t' : Token)
    (argument argument' : Option Text) (n : Nat) :
    depthAfter n (p.settle t argument).2 = depthAfter n (p.settle t' argument').2 := by
  cases p <;> rfl

/-- The argument of an escape, within a scope. A change of font needs a scope to be made in, and
closes none. -/
theorem ArgumentUse.depthAfter_settle (u : ArgumentUse) (argument : Option Text) (h : 1 ≤ n) :
    depthAfter n (u.settle argument) = some n := by
  have hn : n ≠ 0 := Nat.ne_of_gt h
  refine depthAfter_of_forall ?_
  unfold settle
  split
  · simp
  · simp [Instr.depthAfter]
  · simp
  · split <;> simp [Instr.depthAfter, hn]

/-- The name of a character leaves the depth as it is. -/
theorem depthAfter_characterNamed (command : Token) (name : Text) (n : Nat) :
    depthAfter n (characterNamed command name) = some n := by
  unfold characterNamed
  split <;> rfl

/-! ## Frames -/

/-- A frame that may stand outside of all scopes. -/
def Frame.isOuter : Frame → Bool
  | .alternating _ _ _ | .restOfLine _ | .titleLine _ => true
  | .argument p _ | .bareArgument p _ _ | .quotedArgument p _ _ => p == .title
  | _ => false

/-- Frames that lead from one depth to another at the end. Outside of all scopes there are only
frames that may stand there. -/
def Leads (n : Nat) : List Frame → Nat → Prop
  | [], m => n = m
  | f :: fs, m => (1 ≤ n ∨ f.isOuter = true) ∧ ∃ k, depthAfter n f.atEnd = some k ∧ Leads k fs m

/-- Frames that lead from one depth to another, and frames below them that lead on from there, do so
together. -/
theorem Leads.append (h : Leads n fs k) (h' : Leads k below m) : Leads n (fs ++ below) m := by
  induction fs generalizing n with
  | nil =>
    obtain rfl : n = k := h
    exact h'
  | cons f fs ih =>
    obtain ⟨hf, l, hl, hfs⟩ := h
    exact ⟨hf, l, hl, ih hfs⟩

/-- A single frame leads where the end of the line leads with it, if it may stand at its depth. -/
theorem leads_singleton (hf : 1 ≤ n ∨ f.isOuter = true) (h : depthAfter n f.atEnd = some m) :
    Leads n [f] m :=
  ⟨hf, m, h, rfl⟩

/-- A frame that does nothing at the end of the tokens, within a scope. -/
theorem leads_of_atEnd_eq_nil (h : 1 ≤ n) (hf : f.atEnd = []) : Leads n [f] n :=
  leads_singleton (Or.inl h) (by rw [hf, depthAfter_nil])

/-- The end of the tokens leads where the frames lead. -/
theorem depthAfter_finish (h : Leads n fs m) : depthAfter n (finish fs) = some m := by
  induction fs generalizing n with
  | nil => exact congrArg some h
  | cons f fs ih =>
    obtain ⟨-, k, hk, hfs⟩ := h
    exact depthAfter_append_of_eq hk (ih hfs)

/-! ## Steps -/

namespace Step

/-- A step that leads from one depth to another, once its frames are complete. -/
def Leads (n : Nat) (s : Step) (m : Nat) : Prop :=
  ∃ k, depthAfter n s.out = some k ∧ Manpage.Leads k s.frames m

/-- A step still leads where it does with frames below it that lead on. -/
theorem Leads.append_frames (h : s.Leads n k) (hfs : Manpage.Leads k fs m) :
    Step.Leads n ⟨s.out, s.frames ++ fs⟩ m := by
  obtain ⟨l, hl, hframes⟩ := h
  exact ⟨l, hl, hframes.append hfs⟩

/-- A step still leads where it does above a frame that leads on. -/
theorem Leads.above (h : s.Leads n k) (hf : 1 ≤ k ∨ f.isOuter = true)
    (hm : depthAfter k f.atEnd = some m) : (s.above f).Leads n m :=
  h.append_frames (leads_singleton hf hm)

/-- A step behind an instruction leads where it does from the depth behind the instruction on. -/
theorem Leads.preceded (h : s.Leads k m) (hi : i.depthAfter n = some k) :
    (s.preceded i).Leads n m := by
  obtain ⟨l, hl, hframes⟩ := h
  exact ⟨l, by rw [Step.preceded, depthAfter_cons, hi, Option.bind_some, hl], hframes⟩

/-- A token entered first, and then instructions that keep the depth. -/
theorem leads_consume {frames : List Frame} (hout : depthAfter n out = some n)
    (hframes : Manpage.Leads n frames m) : Step.Leads n ⟨.consume t :: out, frames⟩ m :=
  ⟨n, hout, hframes⟩

/-- The call of a macro, within a scope, leads back to the same depth at the end of its line: what
it opens, its line or the frames that it leaves close.

**Proof sketch.** By the macros one by one. Most change no depth at all; headings and fonts open a
scope that is closed behind their arguments, and a tag has a scope from the end of its argument on.
-/
theorem leads_call (isolating : Bool) (t : Token) (h : 1 ≤ n) : (call isolating t).Leads n n := by
  have hn : n ≠ 0 := Nat.ne_of_gt h
  have hargument : ∀ p : Purpose, p ≠ .tag →
      depthAfter n ((p.settle t none).1 ++ (p.settle t none).2) = some n := by
    intro p hp
    refine depthAfter_append_of_eq (p.depthAfter_settle_fst t none n) ?_
    cases p with
    | tag => exact absurd rfl hp
    | _ => rfl
  have hone : ∀ p : Purpose, p ≠ .tag → Manpage.Leads n [.argument p t] n := fun p hp =>
    leads_singleton (Or.inl h) (hargument p hp)
  have hline : ∀ out : List Instr, depthAfter n out = some n →
      Manpage.Leads n [.restOfLine out] n :=
    fun out hout => leads_singleton (Or.inl h) hout
  have hshown : ∀ {l : Nat} (out : List Instr), 1 ≤ l → depthAfter l out = some n →
      Manpage.Leads l [.argumentsOrLine, .afterwards out] n := fun out hl hout =>
    ⟨Or.inl hl, _, rfl, leads_singleton (Or.inl hl) hout⟩
  unfold call
  split
  · exact leads_consume rfl (hline [] rfl)
  · split
    · exact leads_consume rfl (hone .title (by decide))
    · exact ⟨n + 1, rfl, hshown _ (Nat.succ_le_succ (Nat.zero_le n)) rfl⟩
  · exact ⟨n + 1, rfl, hshown _ (Nat.succ_le_succ (Nat.zero_le n)) rfl⟩
  · exact leads_consume rfl (hone .skip (by decide))
  · exact leads_consume rfl (hline _ rfl)
  · exact leads_consume rfl (hline _ rfl)
  · exact leads_consume rfl (hline _ rfl)
  · -- the tag is a scope from the end of its argument on
    have htag : depthAfter n ((Purpose.tag.settle t none).1 ++ (Purpose.tag.settle t none).2) =
        some (n + 1) := by simp [Purpose.settle, readAmount, Instr.depthAfter, hn]
    refine leads_consume rfl ⟨Or.inl h, n + 1, htag, ?_⟩
    exact ⟨Or.inl (Nat.le_add_left 1 n), n + 1, rfl,
      leads_singleton (Or.inl (Nat.le_add_left 1 n)) rfl⟩
  · exact leads_consume rfl ⟨Or.inl h, n, rfl, hone .mark (by decide)⟩
  · exact leads_consume rfl (hone .indent (by decide))
  · exact leads_consume rfl (hline _ (by simp [Instr.depthAfter, hn]))
  · refine ⟨n, by simp [Instr.depthAfter, hn], hshown _ h (by simp [Instr.depthAfter, hn])⟩
  · exact leads_consume rfl (leads_singleton (Or.inl h) rfl)
  · exact leads_consume rfl (hone .openMargin (by decide))
  · exact leads_consume rfl (hone .closeMargin (by decide))
  · exact leads_consume rfl (hline [] rfl)
  · exact ⟨n, rfl, rfl⟩

/-- The command of an escape. -/
theorem leads_command (t : Token) (h : 1 ≤ n) : (command t).Leads n n := by
  unfold command
  cases Escape.ofCommand t.value with
  | font =>
    refine leads_consume rfl ⟨Or.inl h, n, rfl, leads_singleton (Or.inl h) rfl⟩
  | ignored | string | special => exact leads_consume rfl (leads_singleton (Or.inl h) rfl)
  | literal | unsupported => exact leads_consume rfl rfl
  | comment => exact leads_consume rfl (leads_singleton (Or.inl h) rfl)

/-- A token of a word. -/
theorem leads_word (isolating : Bool) (t : Token) (h : 1 ≤ n) : (word isolating t).Leads n n := by
  unfold word
  split
  · exact leads_call isolating t h
  · exact leads_consume rfl rfl
  · exact leads_consume rfl (leads_singleton (Or.inl h) rfl)
  all_goals exact ⟨n, rfl, rfl⟩

/-- Within a macro, a token that begins a unit comes back to its depth. -/
theorem leads_unit (isolating : Bool) (t : Token) (h : 1 ≤ n) : (unit isolating t).Leads n n := by
  have hn : n ≠ 0 := Nat.ne_of_gt h
  have hword := leads_word isolating t (Nat.le_succ_of_le h)
  refine (hword.above (f := .unit) (m := n) (Or.inl (Nat.le_add_left 1 n)) rfl).preceded ?_
  simp [Instr.depthAfter, hn]

/-- Within a macro, a token of text comes back to its depth. -/
theorem leads_run (isolating : Bool) (t : Token) (h : 1 ≤ n) : (run isolating t).Leads n n := by
  unfold run
  split
  · exact leads_word isolating t h
  · exact leads_unit isolating t h

/-- Within a macro, a token on a line of text comes back to its depth. -/
theorem leads_line (isolating : Bool) (t : Token) (h : 1 ≤ n) : (line isolating t).Leads n n :=
  (leads_run isolating t h).above (f := .line) (Or.inl h) rfl

/-- Within a macro, a token that begins an argument comes back to its depth. -/
theorem leads_argument (isolating : Bool) (t : Token) (h : 1 ≤ n) :
    (argument isolating t).Leads n n := by
  unfold argument
  split
  · exact leads_consume rfl (leads_of_atEnd_eq_nil h rfl)
  · exact leads_unit isolating t h

/-- Within a macro, a token among arguments comes back to its depth. -/
theorem leads_arguments (isolating first : Bool) (t : Token) (h : 1 ≤ n) :
    (arguments isolating first t).Leads n n := by
  have harguments : ((argument isolating t).above (.arguments false)).Leads n n :=
    (leads_argument isolating t h).above (f := .arguments false) (Or.inl h) rfl
  unfold arguments
  split
  · exact harguments
  · exact harguments.preceded rfl

/-- An argument in a font of its own, also outside of all scopes. -/
theorem leads_inFont (isolating : Bool) (font other : Font) (t : Token) (n : Nat) :
    (inFont isolating font other t).Leads n n := by
  have hargument := leads_argument isolating t (Nat.le_add_left 1 n)
  refine Leads.preceded (k := n + 1) (Leads.above ?_ (Or.inr rfl) rfl) rfl
  exact hargument.above (Or.inl (Nat.le_add_left 1 n)) rfl

end Step

/-! ## Reactions -/

/-- A reaction that leads from one depth to another, by the step that takes the token or by the
instructions before it is passed on. -/
def Reaction.Leads (n : Nat) (m : Nat) : Reaction → Prop
  | .take s => s.Leads n m
  | .pass out => depthAfter n out = some m

/-- What becomes of an argument leads to a depth that the argument has no say in. -/
theorem Purpose.depthAfter_settle_congr {p : Purpose} (argument argument' : Option Text)
    (h : depthAfter n ((p.settle t argument).1 ++ (p.settle t argument).2) = some m) :
    depthAfter n ((p.settle t argument').1 ++ (p.settle t argument').2) = some m := by
  rw [depthAfter_append, p.depthAfter_settle_fst, Option.bind_some] at h ⊢
  rw [p.depthAfter_settle_snd t t argument' argument, h]

namespace Frame

/-- A frame that goes on leads to the depth that it led to, and stands outside of all scopes if it
did. -/
theorem GoesOn.leads (h : f.GoesOn t g) (hf : 1 ≤ n ∨ f.isOuter = true)
    (hm : depthAfter n f.atEnd = some m) : Manpage.Leads n [g] m := by
  have hinner : f.isOuter = false → 1 ≤ n := fun h => hf.resolve_right (by simp [h])
  cases h with
  | skip | rest => exact leads_singleton hf hm
  | bare => exact leads_singleton hf (Purpose.depthAfter_settle_congr none (some t.value) hm)
  | quote => exact leads_singleton hf (Purpose.depthAfter_settle_congr none (some []) hm)
  | moreBare _ _ text | moreQuoted _ _ text =>
    exact leads_singleton hf (Purpose.depthAfter_settle_congr (some text) (some _) hm)
  | moreTitle => exact leads_singleton hf hm
  | opened u =>
    have hsettle := (u.depthAfter_settle none (hinner rfl)).symm.trans hm
    exact leads_singleton (Or.inl (hinner rfl)) hsettle

/-- The bracket that may close a name. -/
theorem leads_closing (bracketed : Bool) (h : 1 ≤ n) :
    Manpage.Leads n (if bracketed then [closingBracket] else []) n := by
  cases bracketed with
  | false => rfl
  | true => exact leads_singleton (Or.inl h) rfl

end Frame

/-- **A frame leads to the same depth, whatever token comes.**

**Proof sketch.** By cases on the outcome. A complete frame does what it would do at the end. A
frame that goes on leads to the same depth. The other steps keep the depth, and so did the frame. -/
theorem Frame.react_leads (isolating : Bool) (t : Token) (hf : 1 ≤ n ∨ f.isOuter = true)
    (hm : depthAfter n f.atEnd = some m) : (f.react isolating t).Leads n m := by
  have hinner : f.isOuter = false → 1 ≤ n := fun h => hf.resolve_right (by simp [h])
  have hkeep : depthAfter n [] = some m → n = m := Option.some.inj
  have hout := f.outcome_react isolating t
  generalize f.react isolating t = r at hout ⊢
  cases hout with
  | complete => exact hm
  | missing => exact hm
  | fontEnd => exact hm
  | goesOn f g _ h => exact Step.leads_consume rfl (h.leads hf hm)
  | title => exact Step.leads_consume rfl (leads_singleton (Or.inr rfl) hm)
  | close f h =>
    obtain rfl : n = m := by rcases h with ⟨rfl, -⟩ | ⟨rfl, -⟩ <;> exact hkeep hm
    exact Step.leads_consume rfl rfl
  | blank => exact Step.leads_consume rfl (leads_singleton hf hm)
  | line f h =>
    -- such a frame sends nothing out at its end, so the depth stays the same
    obtain ⟨hn, hm⟩ : 1 ≤ n ∧ n = m := by
      rcases h with rfl | rfl | rfl <;> exact ⟨hinner rfl, hkeep hm⟩
    exact hm ▸ Step.leads_line isolating t hn
  | word f h =>
    have hn : 1 ≤ n := by rcases h with rfl | rfl <;> exact hinner rfl
    exact (Step.leads_word isolating t hn).above hf hm
  | arguments f first h =>
    obtain ⟨hn, hm⟩ : 1 ≤ n ∧ n = m := by
      rcases h with rfl | ⟨rfl, -⟩ <;> exact ⟨hinner rfl, hkeep hm⟩
    exact hm ▸ Step.leads_arguments isolating first t hn
  | inFont first next other => exact hkeep hm ▸ Step.leads_inFont isolating next other t n
  | marker =>
    have hn := hinner rfl
    exact hkeep hm ▸ (Step.leads_argument isolating t hn).above (Or.inl hn) rfl
  | call => exact hkeep hm ▸ Step.leads_call isolating t (hinner rfl)
  | bare p caller text =>
    -- the first half of what the argument comes to keeps the depth
    have hfirst := p.depthAfter_settle_fst caller (some text) n
    refine ⟨n, depthAfter_append_of_eq hfirst rfl, leads_singleton (Or.inr rfl) ?_⟩
    simpa only [atEnd, depthAfter_append, hfirst, Option.bind_some] using hm
  | quote p caller text =>
    have hfirst := p.depthAfter_settle_fst caller (some text) n
    refine Step.leads_consume hfirst (leads_singleton (Or.inr rfl) ?_)
    simpa only [atEnd, depthAfter_append, hfirst, Option.bind_some] using hm
  | command => exact hkeep hm ▸ Step.leads_command t (hinner rfl)
  | argument f u bracketed h =>
    obtain ⟨hn, hm⟩ : 1 ≤ n ∧ n = m := by
      rcases h with ⟨rfl, -⟩ | rfl
      · exact ⟨hinner rfl, Option.some.inj ((u.depthAfter_settle none (hinner rfl)).symm.trans hm)⟩
      · exact ⟨hinner rfl, hkeep hm⟩
    exact hm ▸ Step.leads_consume (u.depthAfter_settle _ hn) (leads_closing bracketed hn)
  | character command bracketed =>
    have hn := hinner rfl
    exact hkeep hm ▸
      Step.leads_consume (depthAfter_characterNamed _ _ n) (leads_closing bracketed hn)

/-- Several frames lead to the same depth, whatever token comes.

**Proof sketch.** By induction on the frames. One that takes the token leads on to the depth of the
others, and one that passes it on has come to its own depth before. -/
theorem reactAll_leads (isolating : Bool) (t : Token) (h : Leads n fs m) :
    (reactAll isolating fs t).Leads n m := by
  induction fs generalizing n with
  | nil => exact congrArg some h
  | cons f fs ih =>
    obtain ⟨hf, k, hk, hfs⟩ := h
    have hreact := Frame.react_leads isolating t hf hk
    simp only [reactAll]
    cases hr : f.react isolating t with
    | take s =>
      rw [hr] at hreact
      exact Step.Leads.append_frames hreact hfs
    | pass out =>
      rw [hr] at hreact
      have hmore := ih hfs
      cases hrest : reactAll isolating fs t with
      | take s =>
        rw [hrest] at hmore
        obtain ⟨l, hl, hframes⟩ := hmore
        exact ⟨l, depthAfter_append_of_eq hreact hl, hframes⟩
      | pass more =>
        rw [hrest] at hmore
        exact depthAfter_append_of_eq hreact hmore

/-! ## Whole macros -/

/-- **Frames lead to the same depth, whatever tokens come** until they are complete. By induction on
the tokens: a token that is taken leaves frames that lead on from where it led, and one that is let
go finds the depth reached. -/
theorem depthAfter_complete (isolating : Bool) (ts : List Token) (h : Leads n fs m) :
    depthAfter n (complete isolating fs ts).out = some m := by
  induction ts generalizing n fs with
  | nil => exact depthAfter_finish h
  | cons t ts ih =>
    have hreact := reactAll_leads isolating t h
    simp only [complete]
    cases hr : reactAll isolating fs t with
    | take s =>
      rw [hr] at hreact
      obtain ⟨k, hk, hframes⟩ := hreact
      exact depthAfter_append_of_eq hk (ih hframes)
    | pass out =>
      rw [hr] at hreact
      exact hreact

/-- A macro that shows its arguments in styles of their own: a heading, or one with two fonts by
turns. -/
def Macro.isScoped : Macro → Bool
  | .heading | .subheading | .alternating _ _ => true
  | _ => false

/-- Such a macro is called outside of all scopes.

**Proof sketch.** By cases on the macro. Outside of all scopes nothing may be closed but what the
macro has opened, which leaves those macros that open a scope for their arguments or none at all. -/
theorem Step.leads_call_of_isScoped (isolating : Bool) {name : Macro}
    (ht : Macro.ofName? t.value = some name) (hname : name.isScoped = true) :
    (Step.call isolating t).Leads 0 0 := by
  have hshown : ∀ out : List Instr, depthAfter 1 out = some 0 →
      Manpage.Leads 1 [.argumentsOrLine, .afterwards out] 0 := fun out hout =>
    ⟨Or.inl le_rfl, 1, rfl, leads_singleton (Or.inl le_rfl) hout⟩
  unfold call
  rw [ht]
  cases name with
  | heading =>
    cases isolating with
    | true => exact leads_consume rfl (leads_singleton (Or.inr rfl) rfl)
    | false => exact ⟨1, rfl, hshown _ rfl⟩
  | subheading => exact ⟨1, rfl, hshown _ rfl⟩
  | alternating odd even => exact leads_consume rfl (leads_singleton (Or.inr rfl) rfl)
  | _ => exact Bool.noConfusion hname

/-- **What belongs to a macro with styles of its own** selects fonts within scopes only, and leaves
none of them open, whatever tokens come. -/
theorem depthAfter_handler (isolating : Bool) (ts : List Token) {name : Macro}
    (ht : Macro.ofName? t.value = some name) (hname : name.isScoped = true) :
    depthAfter 0 (handler isolating t ts).out = some 0 := by
  obtain ⟨k, hk, hframes⟩ := Step.leads_call_of_isScoped isolating ht hname
  exact depthAfter_append_of_eq hk (depthAfter_complete isolating ts hframes)

end Manpage

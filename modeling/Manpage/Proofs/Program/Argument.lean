import Manpage.Proofs.Program.Word
import Manpage.Proofs.Token.Call

/-!
# The argument of a macro

A macro that wants an argument reads the tokens of its line. What it does with the argument comes in
two parts, one where the argument is complete and one at the end of the line; everything else that
the tokens bring is a record of them.

## Main definitions

* `Manpage.Step.Settles` — a step that settles an argument, and records things.

## Main results

* `Manpage.exists_feedAll_argument` — the tokens behind a macro that wants an argument.
-/

namespace Manpage

variable {isolating : Bool} {p : Purpose} {caller t : Token} {ts : List Token} {text : Text}
  {is js : List Instr} {argument : Option Text}

/-- Instructions that only record things. -/
def Records (is : List Instr) : Prop :=
  ∀ i ∈ is, i.isRecord = true

/-- Tokens that are entered into the trace are recorded. -/
theorem records_map_consume (ts : List Token) : Records (ts.map .consume) := by
  intro i hi
  obtain ⟨t, -, rfl⟩ := List.mem_map.mp hi
  rfl

/-- Two rows of records are records together. -/
theorem Records.append (h : Records is) (h' : Records js) : Records (is ++ js) :=
  List.forall_mem_append.mpr ⟨h, h'⟩

/-- A token that is entered into the trace is recorded in front of other records. -/
theorem Records.consume (h : Records is) (t : Token) : Records (.consume t :: is) :=
  List.forall_mem_cons.mpr ⟨rfl, h⟩

/-- A step that leaves one frame, and settles an argument with it: what is to be done at once comes
between records, and what is to be done at the end of the line comes last. -/
def Step.Settles (p : Purpose) (caller : Token) (argument : Option Text) (s : Step) : Prop :=
  ∃ f before between, s.frames = [f] ∧ Records before ∧ Records between ∧
    s.out ++ f.atEnd = before ++ (p.settle caller argument).1 ++
      (between ++ (p.settle caller argument).2) ∧
    ((p = .title → argument ≠ none) → f.EndsAtLine)

/-- One more token before a step that settles an argument. -/
theorem Step.Settles.consume {s : Step} (h : s.Settles p caller argument) (t : Token) :
    (s.preceded (.consume t)).Settles p caller argument := by
  obtain ⟨f, before, between, hframes, hbefore, hbetween, heq, hends⟩ := h
  refine ⟨f, .consume t :: before, between, hframes, hbefore.consume t, hbetween, ?_, hends⟩
  simp only [Step.preceded, List.cons_append, heq]

/-- The rest of a line is recorded. The frame stays open over all of its tokens, so its instructions
are still to come. -/
theorem feedAll_restOfLine (later : List Instr) (rest : List Frame)
    (hts : ∀ t ∈ ts, t.startsLine = false) :
    feedAll isolating (.restOfLine later :: rest) ts =
      ⟨ts.map .consume, .restOfLine later :: rest⟩ := by
  induction ts with
  | nil => rfl
  | cons t ts ih =>
    have hl := hts t List.mem_cons_self
    rw [feedAll_cons, feed, Frame.react, if_neg (by simp [hl])]
    simp only [List.cons_append, List.nil_append, ih fun u hu => hts u (List.mem_cons_of_mem t hu)]
    rfl

/-- An argument that is gathered up to the first token of some kind is settled there, or at the end
of the line.

**Proof sketch.** By induction on the tokens, with the text that has been gathered general. A token
of another kind is added to the text; one of the kind settles the argument, and the rest of the line
is swallowed. Without such a token the frame is left, and the end of the line settles what it has
gathered. -/
theorem exists_feedAll_gathered (gather : Text → Frame) (stop : TokenKind)
    (hmore : ∀ text t, t.startsLine = false → t.kind ≠ stop →
      (gather text).react isolating t = .take ⟨[.consume t], [gather (text ++ t.value)]⟩)
    (hstop : ∀ text t, t.startsLine = false → t.kind = stop →
      ∃ before between, Records before ∧ Records between ∧ (gather text).react isolating t =
        .take ⟨before ++ (p.settle caller (some text)).1 ++ between,
          [.restOfLine (p.settle caller (some text)).2]⟩)
    (hend : ∀ text, (gather text).atEnd =
      (p.settle caller (some text)).1 ++ (p.settle caller (some text)).2)
    (hends : ∀ text, (gather text).EndsAtLine)
    (hts : ∀ t ∈ ts, t.startsLine = false) (text : Text) :
    ∃ s : Step, s.Settles p caller
        (some (text ++ Token.valueOf (ts.takeWhile fun u => u.kind ≠ stop))) ∧
      ∀ rest, feedAll isolating (gather text :: rest) ts = ⟨s.out, s.frames ++ rest⟩ := by
  induction ts generalizing text with
  | nil =>
    refine ⟨⟨[], [gather text]⟩, ⟨gather text, [], [], rfl, List.forall_mem_nil _,
      List.forall_mem_nil _, ?_, fun _ => ?_⟩, fun rest => rfl⟩
    · simp [hend]
    · simpa using hends text
  | cons t ts ih =>
    have hl := hts t List.mem_cons_self
    have hts' : ∀ u ∈ ts, u.startsLine = false := fun u hu => hts u (List.mem_cons_of_mem t hu)
    by_cases hk : t.kind = stop
    · -- what stops the gathering settles the argument, and the rest of the line is consumed
      obtain ⟨before, between, hbefore, hbetween, hreact⟩ := hstop text t hl hk
      refine ⟨⟨before ++ (p.settle caller (some text)).1 ++ between ++ ts.map .consume,
        [.restOfLine (p.settle caller (some text)).2]⟩, ?_, fun rest => ?_⟩
      · rw [List.takeWhile_cons_of_neg (by simpa using hk), Token.valueOf_nil, List.append_nil]
        refine ⟨_, before, between ++ ts.map .consume, rfl, hbefore,
          hbetween.append (records_map_consume ts), ?_, fun _ => Frame.endsAtLine_restOfLine _⟩
        simp only [Frame.atEnd, List.append_assoc]
      · simp only [feedAll_cons, feed, hreact, List.cons_append, List.nil_append,
          feedAll_restOfLine _ rest hts']
    · obtain ⟨s, hs, hfeed⟩ := ih hts' (text ++ t.value)
      refine ⟨s.preceded (.consume t), ?_, fun rest => ?_⟩
      · rw [List.takeWhile_cons_of_pos (by simpa using hk), Token.valueOf_cons,
          ← List.append_assoc]
        exact hs.consume t
      · simp only [feedAll_cons, feed, hmore text t hl hk, List.cons_append, List.nil_append, hfeed]
        rfl

/-- **The argument of a macro.** The tokens behind a macro that wants an argument settle the first
argument among them, or that there is none.

**Proof sketch.** Blanks are passed over. A quote begins an argument that the next quote ends, and
any other token one that the next blank ends. -/
theorem exists_feedAll_argument (isolating : Bool) (p : Purpose) (caller : Token)
    (hts : ∀ t ∈ ts, t.startsLine = false) :
    ∃ s : Step, s.Settles p caller (Token.firstArgument? ts) ∧
      ∀ rest, feedAll isolating (.argument p caller :: rest) ts = ⟨s.out, s.frames ++ rest⟩ := by
  induction ts with
  | nil =>
    refine ⟨⟨[], [.argument p caller]⟩, ⟨.argument p caller, [], [], rfl, List.forall_mem_nil _,
      List.forall_mem_nil _, ?_, ?_⟩, fun rest => rfl⟩
    · simp [Frame.atEnd, Token.firstArgument?]
    · intro hp isolating t ht
      have hnot : p ≠ .title := fun h => hp h rfl
      simp [Frame.react, Frame.atEnd, ht, hnot]
  | cons t ts ih =>
    have hl := hts t List.mem_cons_self
    have hts' : ∀ u ∈ ts, u.startsLine = false := fun u hu => hts u (List.mem_cons_of_mem t hu)
    -- the first token is taken with a record of it
    have htaken : ∀ {f : Frame} {argument : Option Text}, (∀ rest, feed isolating
          (.argument p caller :: rest) t = ⟨[.consume t], f :: rest⟩) →
        (∃ s : Step, s.Settles p caller argument ∧
          ∀ rest, feedAll isolating (f :: rest) ts = ⟨s.out, s.frames ++ rest⟩) →
        ∃ s : Step, s.Settles p caller argument ∧ ∀ rest,
          feedAll isolating (.argument p caller :: rest) (t :: ts) = ⟨s.out, s.frames ++ rest⟩ := by
      rintro f argument hfirst ⟨s, hs, hfeed⟩
      refine ⟨s.preceded (.consume t), hs.consume t, fun rest => ?_⟩
      rw [feedAll_cons, hfirst rest, hfeed rest]
      rfl
    rw [Token.firstArgument?]
    by_cases hblank : t.kind = .blank
    · rw [if_pos hblank]
      refine htaken (fun rest => ?_) (ih hts')
      simp [feed, Frame.react, hl, hblank]
    · rw [if_neg hblank]
      by_cases hquote : t.kind = .quote
      · rw [if_pos hquote]
        refine htaken (fun rest => ?_) (exists_feedAll_gathered (.quotedArgument p caller) .quote ?_
          ?_ (fun _ => rfl) ?_ hts' [])
        · simp [feed, Frame.react, hl, hquote]
        · intro text u hu hk
          simp [Frame.react, hu, hk]
        · intro text u hu hk
          refine ⟨[.consume u], [], by simp [Records, Instr.isRecord], List.forall_mem_nil _, ?_⟩
          simp [Frame.react, hu, hk]
        · intro text isolating u hu
          simp [Frame.react, Frame.atEnd, hu]
      · rw [if_neg hquote]
        refine htaken (fun rest => ?_) (exists_feedAll_gathered (.bareArgument p caller) .blank ?_
          ?_ (fun _ => rfl) (Frame.endsAtLine_bareArgument p caller) hts' t.value)
        · simp [feed, Frame.react, hl, hblank, hquote]
        · intro text u hu hk
          simp [Frame.react, hu, hk]
        · intro text u hu hk
          refine ⟨[], [.consume u], List.forall_mem_nil _, by simp [Records, Instr.isRecord], ?_⟩
          simp [Frame.react, hu, hk]

end Manpage

import Manpage.Proofs.Program.Scopes
import Manpage.Proofs.Token.First

/-!
# Warnings line by line

Where no section is asked for, the warnings of a source come from its lines one by one: each line
warns of what it would by itself, whatever lines there are before it. Warnings about an argument
that reaches the end of its line come before the next line is read, and no warning waits below a
frame that takes the next line. So warnings come in the order of the lines.

## Main definitions

* `Manpage.anomaliesOf` — what instructions warn of, and of which token.
* `Manpage.Frame.isPrompt` — a frame that leaves no warning for the lines to come.

## Main results

* `Manpage.anomaliesOf_program_append` — lines warn independently of what precedes them.
* `Manpage.pairwise_anomaliesOf_ofLines` — warnings come in the order of the lines.
-/

namespace Manpage

variable {f : Frame} {fs below : List Frame} {s : Step} {t : Token} {ts us : List Token}
  {i : Instr} {is js : List Instr} {anomaly : Anomaly}

/-! ## Anomalies -/

/-- What an instruction warns of, and of which token. -/
def Instr.anomaly? : Instr → Option (Anomaly × Token)
  | .warn anomaly t => some (anomaly, t)
  | _ => none

/-- What instructions warn of, in order. -/
def anomaliesOf (is : List Instr) : List (Anomaly × Token) :=
  is.filterMap Instr.anomaly?

/-- An instruction that warns of something. -/
def Instr.isWarning (i : Instr) : Bool :=
  i.anomaly?.isSome

/-- The anomalies of two rows of instructions are those of the first and those of the second. -/
theorem anomaliesOf_append (is js : List Instr) :
    anomaliesOf (is ++ js) = anomaliesOf is ++ anomaliesOf js :=
  List.filterMap_append

/-- The anomalies of instructions are those of the warnings among them. -/
theorem anomaliesOf_filter (is : List Instr) :
    anomaliesOf (is.filter Instr.isWarning) = anomaliesOf is := by
  rw [anomaliesOf, List.filterMap_filter]
  refine List.filterMap_congr fun i _ => ?_
  cases i <;> rfl

/-- An anomaly is among those of instructions just if one of them warns of it. -/
theorem mem_anomaliesOf : (anomaly, t) ∈ anomaliesOf is ↔ .warn anomaly t ∈ is := by
  rw [anomaliesOf, List.mem_filterMap]
  constructor
  · rintro ⟨i, hi, heq⟩
    cases i with
    | warn => simp_all [Instr.anomaly?]
    | _ => exact absurd heq (by simp [Instr.anomaly?])
  · exact fun h => ⟨_, h, rfl⟩

/-! ## Frames without warnings in store -/

/-- A frame that stores no warning for the lines to come, and does not wait for a title. -/
def Frame.isPrompt : Frame → Bool
  | .afterwards out => out.all fun i => !i.isWarning
  | .argument .title _ => false
  | _ => true

/-- A step that leaves such frames only. -/
def Step.IsPrompt (s : Step) : Prop :=
  ∀ f ∈ s.frames, f.isPrompt = true

namespace Step

/-- The call of a macro leaves no warning in store, where no section is asked for. -/
theorem call_prompt (t : Token) : (call false t).IsPrompt := by
  unfold call
  split <;> simp [IsPrompt, Frame.isPrompt, Instr.isWarning, Instr.anomaly?]

/-- Frames without warnings in store leave a step without them. -/
theorem isClosed_isPrompt :
    IsClosed (fun _ => True) (fun f => f.isPrompt = true) Step.IsPrompt where
  above := fun hf h => List.forall_mem_append.mpr ⟨h, List.forall_mem_singleton.mpr hf⟩
  preceded := fun _ h => h

end Step

/-- Text leaves no warning in store. Only the call of a macro puts instructions in store that are
not those of its argument. -/
theorem holdOfText_isPrompt : HoldOfText (fun _ => True) fun f => f.isPrompt = true where
  instr := fun _ => trivial
  frame := by
    intro f hf
    cases f with
    | afterwards out =>
      have hfree : NoneOf Instr.isWarning out := Frame.isFreeOf_of_isOfText rfl rfl hf
      simpa [Frame.isPrompt, NoneOf] using hfree
    | argument => exact Bool.noConfusion hf
    | _ => rfl
  goesOn := by
    intro t f g h hf
    cases h with
    | skip => exact hf
    | _ => rfl
  atEnd := fun _ _ _ => trivial
  rest := fun _ => rfl

/-- A stack without warnings in store stays one, whatever token comes. -/
theorem feed_prompt (h : ∀ f ∈ fs, f.isPrompt = true) (t : Token) :
    (feed false fs t).IsPrompt :=
  Step.isClosed_isPrompt.feed holdOfText_isPrompt h (fun _ _ _ hframes => hframes) fun _ =>
    Step.call_prompt t

/-- Tokens leave no warning in store where there was none before them. -/
theorem feedAll_prompt (h : ∀ f ∈ fs, f.isPrompt = true) (ts : List Token) :
    (feedAll false fs ts).IsPrompt := by
  induction ts generalizing fs with
  | nil => exact h
  | cons t ts ih => exact ih (feed_prompt h t)

/-! ## The start of a line -/

/-- The frames that may take a line of text and do not wait for a title. They are a tag and the
arguments that may come from the next line. -/
theorem Frame.eq_of_mayTakeLine (hmay : f.mayTakeLine = true) (hf : f.isPrompt = true) :
    f = .tag ∨ f = .argumentsOrLine := by
  cases f with
  | tag => exact Or.inl rfl
  | argumentsOrLine => exact Or.inr rfl
  | argument p caller =>
    cases p with
    | title => exact Bool.noConfusion hf
    | _ => exact Bool.noConfusion hmay
  | _ => exact Bool.noConfusion hmay

/-- A frame takes the first token of a line as the empty stack does, but for the beginning of the
line, or passes it on as it would do at the end.

**Proof sketch.** Frames that may take a line without storing a warning are a tag and one that waits
for an argument. They take it as the empty stack does; all others pass it on. -/
theorem Frame.react_startsLine_cases (hf : f.isPrompt = true) (ht : t.IsPlaced)
    (hl : t.startsLine = true) :
    (∃ out, f.react false t = .pass out ∧
        out.filter Instr.isWarning = f.atEnd.filter Instr.isWarning) ∨
      ∃ s, f.react false t = .take s ∧ Step.top false t = s.preceded .beginLine ∧ f.atEnd = [] ∧
        f.mayTakeLine = true := by
  by_cases hpasses : f.mayTakeLine = false ∨ (t.kind = .macroName ∧ f ≠ .tag) ∨ t.kind = .emptyLine
  · exact Or.inl (react_of_startsLine (P := Instr.isWarning) false (fun _ => rfl) ht hl hpasses)
  · simp only [not_or, not_and, not_not, Bool.not_eq_false] at hpasses
    obtain ⟨hmay, hcalled, hempty⟩ := hpasses
    by_cases hk : t.kind = .macroName
    · obtain rfl := hcalled hk
      exact Or.inr ⟨Step.call false t, by simp [react, hk], by simp [Step.top, hk, hl], rfl, rfl⟩
    · have htop : Step.top false t = (Step.line false t).preceded .beginLine := by
        simp only [Step.top, hl, if_true]
      rcases eq_of_mayTakeLine hmay hf with rfl | rfl
      · exact Or.inr ⟨_, by simp only [react], htop, rfl, rfl⟩
      · exact Or.inr ⟨_, by simp [react, hl, hk, hempty], htop, rfl, rfl⟩

/-- At the start of a line a stack warns of what it would at the end, and the tokens warn of what
they would by themselves.

**Proof sketch.** Induction on the stack. A frame passes the token on with what it would do at the
end. A frame that takes it instead takes it as the empty stack does, above stored instructions
without a warning. -/
theorem filter_programFrom_line (h : Orderly fs) (hfs : ∀ f ∈ fs, f.isPrompt = true)
    (ht : t.IsPlaced) (hl : t.startsLine = true) :
    (programFrom false fs (t :: ts)).filter Instr.isWarning =
      (finish fs).filter Instr.isWarning ++ (program false (t :: ts)).filter Instr.isWarning := by
  induction fs with
  | nil => rfl
  | cons f below ih =>
    obtain ⟨htakes, -, hbelow⟩ := h
    obtain ⟨hf, hprompt⟩ := List.forall_mem_cons.mp hfs
    rcases Frame.react_startsLine_cases hf ht hl with ⟨out, hreact, hout⟩ | ⟨s, hreact, htop, hend,
      hmay⟩
    · exact filter_programFrom_of_pass hreact hout (ih hbelow hprompt)
    · have hfree : NoneOf Instr.isWarning (finish below) := by
        intro i hi
        obtain ⟨g, hg, hi⟩ := List.mem_flatMap.mp hi
        obtain ⟨out, rfl⟩ := htakes hmay g hg
        have hstored := List.all_eq_true.mp (hprompt _ hg) i hi
        simpa using hstored
      have hsame := filter_programFrom_afterwards false (htakes hmay) hfree s.frames ts
      have hfinish : (finish (f :: below)).filter Instr.isWarning = [] := by
        rw [finish, List.flatMap_cons, hend]
        exact hfree.filter_eq
      rw [hfinish, List.nil_append]
      simp only [program, programFrom, feed, hreact, htop, List.filter_append, hsame]
      rfl

/-- **Lines warn independently.** What precedes the start of a line makes no difference to what the
tokens from there on warn of. -/
theorem anomaliesOf_program_append (hts : ∀ u ∈ ts, u.IsPlaced) (ht : t.IsPlaced)
    (hl : t.startsLine = true) :
    anomaliesOf (program false (ts ++ t :: us)) =
      anomaliesOf (program false ts) ++ anomaliesOf (program false (t :: us)) := by
  have horderly : Orderly (feedAll false [] ts).frames := feedAll_orderly trivial hts
  have hprompt : (feedAll false [] ts).IsPrompt := feedAll_prompt (List.forall_mem_nil _) ts
  rw [← anomaliesOf_filter, program, programFrom_append, List.filter_append,
    filter_programFrom_line horderly hprompt ht hl, ← List.append_assoc, ← List.filter_append,
    ← programFrom_eq, anomaliesOf_append, anomaliesOf_filter, anomaliesOf_filter]
  rfl

/-! ## Lines -/

/-- The warnings of tokens that come in order are about macros and commands among them. -/
theorem mem_of_mem_anomaliesOf {q : Stage} (hafter : Stage.between.after ts = some q)
    (hopen : q.isOpened = false) (h : (anomaly, t) ∈ anomaliesOf (program false ts)) :
    t ∈ ts ∧ (t.kind = .macroName ∨ t.kind = .command) :=
  (program_carries_of_after false hafter hopen fun _ hu => hu).sound _ (mem_anomaliesOf.mp h)

/-- The first line among several warns of what it does by itself. What the line has left open warns
of nothing later, so that the other lines warn of what they would by themselves. -/
theorem anomaliesOf_ofLines_cons (number : Nat) (line : Text) (lines : List Text) :
    anomaliesOf (program false (Token.ofLines number (line :: lines))) =
      anomaliesOf (program false (Token.ofLine number line)) ++
        anomaliesOf (program false (Token.ofLines (number + 1) lines)) := by
  have hplaced : ∀ number lines, ∀ u ∈ Token.ofLines number lines, u.IsPlaced := by
    intro number lines
    obtain ⟨q, hafter, -⟩ := Stage.after_ofLines (s := .between) number lines rfl
    exact Token.isPlaced_of_after hafter
  have hall := hplaced number (line :: lines)
  rw [Token.ofLines] at hall ⊢
  cases hlines : Token.ofLines (number + 1) lines with
  | nil => simp [program, programFrom, finish, anomaliesOf]
  | cons t us =>
    rw [hlines] at hall
    exact anomaliesOf_program_append (fun u hu => hall u (List.mem_append_left _ hu))
      (hall t (by simp)) (Token.startsLine_of_ofLines_eq_cons hlines)

/-- **Warnings come in the order of the lines.**

**Proof sketch.** By induction on the lines. The warnings of the first line are about its tokens,
and those of the others about tokens below. -/
theorem pairwise_anomaliesOf_ofLines (number : Nat) (lines : List Text) :
    (anomaliesOf (program false (Token.ofLines number lines))).Pairwise
      fun p q => p.2.line ≤ q.2.line := by
  induction lines generalizing number with
  | nil => exact List.Pairwise.nil
  | cons line lines ih =>
    rw [anomaliesOf_ofLines_cons]
    have hline : ∀ p ∈ anomaliesOf (program false (Token.ofLine number line)),
        p.2.line = number := by
      rintro ⟨anomaly, t⟩ h
      obtain ⟨q, hafter, hopen⟩ := Stage.after_ofLine (s := .between) number line rfl
      exact Token.line_of_mem_ofLine (mem_of_mem_anomaliesOf hafter hopen h).1
    have hlines : ∀ p ∈ anomaliesOf (program false (Token.ofLines (number + 1) lines)),
        (number : Int) + 1 ≤ p.2.line := by
      rintro ⟨anomaly, t⟩ h
      obtain ⟨q, hafter, hopen⟩ := Stage.after_ofLines (s := .between) (number + 1) lines rfl
      exact_mod_cast (Token.line_of_mem_ofLines (mem_of_mem_anomaliesOf hafter hopen h).1).1
    refine List.pairwise_append.mpr ⟨?_, ih (number + 1), fun p hp q hq => ?_⟩
    · refine List.pairwise_of_forall_mem_list fun p hp q hq => ?_
      exact Int.le_of_eq ((hline p hp).trans (hline q hq).symm)
    · have hfirst := hline p hp
      have hmore := hlines q hq
      omega

end Manpage

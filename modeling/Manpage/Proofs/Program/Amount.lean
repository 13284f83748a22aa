import Manpage.Proofs.Program.Marker

/-!
# Amounts that are too large

The only argument of a macro that can stop an interpretation by itself is an amount that no double
holds. Which macros take an amount, and where on their lines it stands, can be said of the tokens.

## Main definitions

* `Manpage.Numeral.isTooLarge` — a text that denotes a number which no double holds.
* `Manpage.Token.amount?`, `Manpage.Token.overflows` — the amount of a macro, and a macro whose
  amount is too large.

## Main results

* `Manpage.counted_faults` — one line.
* `Manpage.countScopes_of_overflows`, `Manpage.exists_of_countScopes_eq_numberOverflow` — all lines.
-/

namespace Manpage

variable {t : Token} {ts before after : List Token} {is js : List Instr} {d e : Nat}
  {b isolating : Bool} {p : Purpose}

/-! ## Amounts -/

/-- A text that denotes a number which no double holds. -/
def Numeral.isTooLarge (t : Text) : Bool :=
  (Numeral.ofText? t).any fun x => x.toInt?.isNone

namespace Token

/-- The amount of a macro that other tokens follow: the first argument on its line, or the one
behind the marker of a paragraph. -/
def amount? (t : Token) (ts : List Token) : Option Text :=
  match t.called? with
  | some .skip | some .tagged | some .indent | some .openMargin | some .closeMargin => argument? ts
  | some .marked => secondArgument? ts
  | _ => none

/-- A macro whose amount is too large. -/
def overflows (t : Token) (ts : List Token) : Bool :=
  (t.amount? ts).any Numeral.isTooLarge

/-- Only the name of a macro can have an amount that is too large. -/
theorem kind_of_overflows (h : t.overflows ts = true) : t.kind = .macroName := by
  cases hcalled : t.called? with
  | none => simp [overflows, amount?, hcalled] at h
  | some m => exact kind_of_called? hcalled

end Token

/-- The fault of a number comes first, or not at all. -/
def Faults (b : Bool) (is : List Instr) : Prop :=
  if b then ∃ more, is = .fault .numberOverflow :: more else .fault .numberOverflow ∉ is

/-- The fault of a number before instructions that are no such faults. -/
theorem Faults.append (h : is.filter Instr.isCounted =
      if b then [.fault .numberOverflow] else []) (hjs : .fault .numberOverflow ∉ js) :
    Faults b ((is ++ js).filter Instr.isCounted) := by
  rw [List.filter_append, h]
  cases b with
  | true => exact ⟨_, rfl⟩
  | false => exact fun hmem => hjs (List.mem_filter.mp hmem).1

/-- Reading a number that is too large is a fault, and of the instructions that count it is the only
one. -/
theorem readNumber_faults (t : Token) (argument : Text) :
    (readNumber t argument).1.filter Instr.isCounted =
      if Numeral.isTooLarge argument then [.fault .numberOverflow] else [] := by
  unfold readNumber Numeral.isTooLarge
  cases Numeral.ofText? argument with
  | none => rfl
  | some x =>
    cases hx : x.toInt? with
    | none => simp [hx, Instr.isCounted]
    | some n => simp [hx]

/-- Reading an amount is a fault just if it is given and too large. -/
theorem readAmount_faults (t : Token) (argument : Option Text) :
    (readAmount t argument).1.filter Instr.isCounted =
      if argument.any Numeral.isTooLarge then [.fault .numberOverflow] else [] := by
  cases argument with
  | none => rfl
  | some argument => exact readNumber_faults t argument

/-- Reading a number of empty lines is a fault just if it is given and too large. What else it sends
out are warnings, which do not count. -/
theorem readSkip_faults (t : Token) (argument : Option Text) :
    (readSkip t argument).1.filter Instr.isCounted =
      if argument.any Numeral.isTooLarge then [.fault .numberOverflow] else [] := by
  cases argument with
  | none => rfl
  | some argument =>
    have hnumber := readNumber_faults t argument
    simp only [readSkip]
    split
    · exact hnumber
    · split
      · exact hnumber
      · rw [List.filter_append, hnumber]
        exact List.append_nil _

/-- The argument of a macro has the fault of a number where it is too large, unless it is a
title. -/
theorem Purpose.settle_faults (hp : p ≠ .title) (t : Token) (argument : Option Text) :
    Faults (argument.any Numeral.isTooLarge)
      (((p.settle t argument).1 ++ (p.settle t argument).2).filter Instr.isCounted) := by
  have hamount := readAmount_faults t argument
  cases p with
  | title => exact absurd rfl hp
  | skip => exact Faults.append (readSkip_faults t argument) (by simp [settle])
  | tag | mark | indent | openMargin | closeMargin =>
    exact Faults.append hamount (by simp [settle])

/-! ## One line -/

/-- A line whose frames have nothing in store that counts. -/
theorem counted_textual (isolating : Bool) (hk : t.kind = .macroName)
    (hout : (Step.call isolating t).out.filter Instr.isCounted = [])
    (hframes : IsTextual Instr.isCounted (Step.call isolating t).frames)
    (hts : ∀ u ∈ ts, u.IsPlaced) : counted isolating (t :: Token.restOfLine ts) = [] := by
  have hfree := programFrom_free isolating isSortOfCounted_isCounted hframes
    fun u hu => kind_ne_macroName_of_mem_restOfLine hts hu
  rw [counted_cons_call hk, hout, hfree.filter_eq, List.append_nil]

/-- A line with an argument. What counts comes when the argument is settled, with nothing from the
frames below. -/
theorem counted_argument (isolating : Bool) (hk : t.kind = .macroName) {rest : List Frame}
    (hcall : Step.call isolating t = ⟨[.consume t], .argument p t :: rest⟩)
    (hrest : (finish rest).filter Instr.isCounted = []) (ts : List Token) :
    counted isolating (t :: Token.restOfLine ts) =
      ((p.settle t (Token.argument? ts)).1 ++ (p.settle t (Token.argument? ts)).2).filter
        Instr.isCounted := by
  have hline := filter_programFrom_argument isolating p t rest
    fun u (hu : u ∈ Token.restOfLine ts) => Token.startsLine_of_mem_restOfLine hu
  rw [counted_cons_call hk, hcall, hline, List.filter_append, hrest, List.append_nil]
  rfl

/-- **One line.** The line of a macro has the fault of a number where its amount is too large,
before anything that opens or closes scopes, and else it has none.

**Proof sketch.** By the macro that is called: the argument is settled once, and text brings nothing
that counts. -/
theorem counted_faults (isolating : Bool) (hk : t.kind = .macroName) (hts : ∀ u ∈ ts, u.IsPlaced) :
    Faults (t.overflows ts) (counted isolating (t :: Token.restOfLine ts)) := by
  have hcalled := Token.called?_of_kind hk
  -- a macro without an amount
  have hnone : t.amount? ts = none → counted isolating (t :: Token.restOfLine ts) = [] →
      Faults (t.overflows ts) (counted isolating (t :: Token.restOfLine ts)) := by
    intro hamount hnil
    rw [Token.overflows, hamount, hnil]
    exact List.not_mem_nil
  -- a macro with one
  have hsome : ∀ p, p ≠ .title → t.amount? ts = Token.argument? ts → ∀ rest,
      Step.call isolating t = ⟨[.consume t], .argument p t :: rest⟩ →
      (finish rest).filter Instr.isCounted = [] →
      Faults (t.overflows ts) (counted isolating (t :: Token.restOfLine ts)) := by
    intro p hp hamount rest hcall hrest
    rw [Token.overflows, hamount, counted_argument isolating hk hcall hrest]
    exact Purpose.settle_faults hp t _
  cases hname : Macro.ofName? t.value with
  | none =>
    rw [hname] at hcalled
    refine hnone (by simp [Token.amount?, hcalled]) (counted_textual isolating hk ?_ ?_ hts)
    · simp [Step.call, hname, Instr.isCounted, Instr.isMargin]
    · simp [Step.call, hname, IsTextual]
  | some m =>
    rw [hname] at hcalled
    cases m with
    | skip =>
      exact hsome .skip (by simp) (by simp [Token.amount?, hcalled]) []
        (by simp [Step.call, hname]) rfl
    | indent =>
      exact hsome .indent (by simp) (by simp [Token.amount?, hcalled]) []
        (by simp [Step.call, hname]) rfl
    | openMargin =>
      exact hsome .openMargin (by simp) (by simp [Token.amount?, hcalled]) []
        (by simp [Step.call, hname]) rfl
    | closeMargin =>
      exact hsome .closeMargin (by simp) (by simp [Token.amount?, hcalled]) []
        (by simp [Step.call, hname]) rfl
    | tagged =>
      exact hsome .tag (by simp) (by simp [Token.amount?, hcalled])
        [.tag, .afterwards [.closeScope]] (by simp [Step.call, hname]) rfl
    | marked =>
      have hline := filter_programFrom_marker isolating .mark t
        (fun u (hu : u ∈ Token.restOfLine ts) => Token.startsLine_of_mem_restOfLine hu)
        fun u hu => kind_ne_macroName_of_mem_restOfLine hts hu
      have hcounted : counted isolating (t :: Token.restOfLine ts) =
          ((Purpose.mark.settle t (Token.secondArgument? ts)).1 ++
            (Purpose.mark.settle t (Token.secondArgument? ts)).2).filter Instr.isCounted := by
        rw [counted_cons_call hk]
        simp only [Step.call, hname, hline]
        rfl
      rw [hcounted, Token.overflows, Token.amount?, hcalled]
      exact Purpose.settle_faults (by simp) t _
    | heading =>
      rw [counted_heading isolating hcalled hts, Token.overflows, Token.amount?, hcalled]
      cases isolating with
      | true => exact List.not_mem_nil
      | false => simp [Faults]
    | subheading | inFont | alternating | title | lineBreak | noFill | fill | paragraph
    | condition =>
      refine hnone (by simp [Token.amount?, hcalled]) (counted_textual isolating hk ?_ ?_ hts)
      · simp [Step.call, hname, Instr.isCounted, Instr.isMargin]
      · simp [Step.call, hname, IsTextual, Frame.IsFreeOf, NoneOf, Instr.isCounted, Instr.isMargin]

/-! ## All lines -/

/-- Without the fault of a number among them, instructions do not end with it. The other fault of a
count is that of closing too many scopes. -/
theorem mem_of_countScopes (h : countScopes d is = .error .numberOverflow) :
    .fault .numberOverflow ∈ is := by
  induction is generalizing d with
  | nil => exact absurd h (by simp [countScopes])
  | cons i is ih =>
    simp only [countScopes] at h
    split at h
    · rename_i cause hcause
      obtain rfl := Except.error.inj h
      cases i with
      | closeMargins count t =>
        simp only [Instr.faultAt?] at hcause
        split at hcause <;> exact absurd hcause (by simp)
      | fault c =>
        obtain rfl := Option.some.inj hcause
        exact List.mem_cons_self
      | _ => exact absurd hcause (by simp [Instr.faultAt?])
    · exact List.mem_cons_of_mem i (ih h)

/-- The fault of a line. -/
theorem Faults.countScopes_eq_iff (h : Faults b is) (d : Nat) :
    countScopes d is = .error .numberOverflow ↔ b = true := by
  cases b with
  | true =>
    obtain ⟨more, rfl⟩ := h
    exact ⟨fun _ => rfl, fun _ => rfl⟩
  | false =>
    exact ⟨fun hcount => absurd (mem_of_countScopes hcount) h, fun hb => Bool.noConfusion hb⟩

/-- A macro whose amount is too large has the fault where it is reached. What comes before the macro
counts as it does alone, and the line of the macro counts for the fault. -/
theorem countScopes_of_overflows (hts : ∀ u ∈ before ++ t :: after, u.IsPlaced)
    (h : t.overflows after = true) (hbefore : countScopes d (counted isolating before) = .ok e) :
    countScopes d (counted isolating (before ++ t :: after)) = .error .numberOverflow := by
  have ht := hts t (by simp)
  have hafter : ∀ u ∈ after, u.IsPlaced :=
    fun u hu => hts u (List.mem_append_right _ (List.mem_cons_of_mem t hu))
  have hk := Token.kind_of_overflows h
  have hline := ((counted_faults isolating hk hafter).countScopes_eq_iff e).mpr h
  rw [counted_append (fun u hu => hts u (List.mem_append_left _ hu)) ht
    (ht.startsLine_of_macroName hk) hafter, counted_cons_line ht hafter, countScopes_append,
    hbefore, Except.bind, countScopes_append, hline]
  rfl

/-- Where a number is too large, it is the amount of a macro that is reached.

**Proof sketch.** Induction on the tokens: the first macro whose line has the fault is the one. -/
theorem exists_of_countScopes_eq_numberOverflow (hts : ∀ u ∈ ts, u.IsPlaced)
    (h : countScopes d (counted isolating ts) = .error .numberOverflow) :
    ∃ before t after e, ts = before ++ t :: after ∧ t.overflows after = true ∧
      countScopes d (counted isolating before) = .ok e := by
  induction ts generalizing d with
  | nil => exact absurd h (by simp [counted, program, programFrom, finish, countScopes])
  | cons u ts ih =>
    have hu := hts u List.mem_cons_self
    have hts' : ∀ v ∈ ts, v.IsPlaced := fun v hv => hts v (List.mem_cons_of_mem u hv)
    by_cases hk : u.kind = .macroName
    · rw [counted_cons_line hu hts', countScopes_append] at h
      cases hline : countScopes d (counted isolating (u :: Token.restOfLine ts)) with
      | error cause =>
        rw [hline] at h
        obtain rfl := Except.error.inj h
        have hoverflows := ((counted_faults isolating hk hts').countScopes_eq_iff d).mp hline
        exact ⟨[], u, ts, d, rfl, hoverflows, rfl⟩
      | ok c =>
        rw [hline] at h
        obtain ⟨before, t, after, e, rfl, hoverflows, hbefore⟩ := ih hts' h
        refine ⟨u :: before, t, after, e, rfl, hoverflows, ?_⟩
        have hl : t.startsLine = true := (hts' t (by simp)).startsLine_of_macroName
          (Token.kind_of_overflows hoverflows)
        rw [Token.restOfLine_append before hl] at hline
        rw [counted_cons_line hu fun v hv => hts' v (List.mem_append_left _ hv)]
        exact countScopes_append_eq_ok_iff.mpr ⟨c, hline, hbefore⟩
    · rw [counted_cons_text hk hts'] at h
      obtain ⟨before, t, after, e, rfl, hoverflows, hbefore⟩ := ih hts' h
      refine ⟨u :: before, t, after, e, rfl, hoverflows, ?_⟩
      rw [counted_cons_text hk fun v hv => hts' v (List.mem_append_left _ hv)]
      exact hbefore

end Manpage

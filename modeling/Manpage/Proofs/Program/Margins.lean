import Manpage.Proofs.Program.Scopes

/-!
# What macros do to margin scopes

Three macros open and close margin scopes, and which of them stand in a document can be read off its
tokens: one macro opens a scope, one closes as many as its argument says, and a heading closes all
of them, unless one section is isolated, and opens the margin of its section.

## Main definitions

* `Manpage.closeCount?` — the number of scopes that a macro with some argument closes.
* `Manpage.openScopes` — the number of scopes that tokens leave open.

## Main results

* `Manpage.filter_programFrom_argument` — the argument of a macro is settled once.
* `Manpage.counted_closeMargin`, `Manpage.counted_openMargin`, `Manpage.counted_heading`,
  `Manpage.counted_other_free` — what the line of a macro contributes.
* `Manpage.countScopes_line` — what the line of a macro does to the number of open scopes.
* `Manpage.openScopes_le_of_countScopes` — the number of scopes that are open.
* `Manpage.exists_of_countScopes_eq_error`, `Manpage.countScopes_closeMargin` — where a program
  closes more scopes than are open.
-/

namespace Manpage

variable {f : Frame} {fs rest : List Frame} {t u caller : Token} {ts us : List Token}
  {p : Purpose} {P : Instr → Bool} {d e o k n : Nat} {isolating : Bool}

/-! ## The scopes of tokens -/

/-- The number of margin scopes that are closed by a macro which these tokens follow: its argument
without a fraction, a negative one counted as nothing, and one where no number is given. There is
none where the number is too large for a double. -/
def closeCount? (ts : List Token) : Option Nat :=
  match Token.argument? ts with
  | none => some 1
  | some argument =>
    match Numeral.ofText? argument with
    | none => some 1
    | some x => x.toInt?.map Int.toNat

/-- The number of open scopes after a token that other tokens follow, where so many were open. -/
def Token.scopesAfter (isolating : Bool) (t : Token) (ts : List Token) (d : Nat) : Nat :=
  match t.called? with
  | some .openMargin => d + 1
  | some .closeMargin => d - (closeCount? ts).getD 0
  | some .heading => if isolating then d else 0
  | _ => d

/-- The number of open scopes after tokens: those that were open before or are opened by the tokens,
and are not closed by them. Where no section is isolated, a heading closes all scopes. -/
def openScopes (isolating : Bool) (d : Nat) : List Token → Nat
  | [] => d
  | t :: ts => openScopes isolating (t.scopesAfter isolating ts d) ts

/-- A heading that opens the margin of its section is among the tokens. -/
def hasSectionMargin (isolating : Bool) (ts : List Token) : Bool :=
  !isolating && ts.any fun t => t.called? = some .heading

/-! ## Arguments -/

/-- The record of a token does not count. -/
theorem filter_consume_append (t : Token) (is : List Instr) :
    ([Instr.consume t] ++ is).filter Instr.isCounted = is.filter Instr.isCounted := rfl

/-- On the rest of a line no instruction counts but those in store, which come at its end. By
induction on the tokens, each of which is recorded and no more. -/
theorem filter_programFrom_restOfLine (isolating : Bool) (out : List Instr) (rest : List Frame)
    (hts : ∀ t ∈ ts, t.startsLine = false) :
    (programFrom isolating (.restOfLine out :: rest) ts).filter Instr.isCounted =
      (out ++ finish rest).filter Instr.isCounted := by
  induction ts with
  | nil => rfl
  | cons t ts ih =>
    have hl := hts t List.mem_cons_self
    simp only [programFrom, feed, Frame.react, hl, Bool.false_eq_true, if_false]
    rw [filter_consume_append]
    exact ih fun u hu => hts u (List.mem_cons_of_mem t hu)

/-- An argument that is gathered up to the first token of some kind is settled once, there or at the
end of the line.

**Proof sketch.** By induction on the tokens, with the text that has been gathered general. The
tokens that are gathered and those that are swallowed count for nothing; what counts is the use of
the argument, at the token that ends it or at the end of the line. -/
theorem filter_programFrom_gathered (isolating : Bool) (p : Purpose) (caller : Token)
    (gather : Text → Frame) (stop : TokenKind)
    (hmore : ∀ text t, t.startsLine = false → t.kind ≠ stop →
      (gather text).react isolating t = .take ⟨[.consume t], [gather (text ++ t.value)]⟩)
    (hstop : ∀ text t, t.startsLine = false → t.kind = stop →
      ∃ out, (gather text).react isolating t =
          .take ⟨out, [.restOfLine (p.settle caller (some text)).2]⟩ ∧
        out.filter Instr.isCounted =
          (p.settle caller (some text)).1.filter Instr.isCounted)
    (hend : ∀ text, (gather text).atEnd =
      (p.settle caller (some text)).1 ++ (p.settle caller (some text)).2)
    (text : Text) (rest : List Frame) (hts : ∀ t ∈ ts, t.startsLine = false) :
    (programFrom isolating (gather text :: rest) ts).filter Instr.isCounted =
      (finish (gather (text ++ Token.valueOf (ts.takeWhile fun u => u.kind ≠ stop)) ::
        rest)).filter Instr.isCounted := by
  induction ts generalizing text with
  | nil =>
    rw [List.takeWhile_nil, Token.valueOf_nil, List.append_nil]
    rfl
  | cons t ts ih =>
    have hl := hts t List.mem_cons_self
    have hts' : ∀ u ∈ ts, u.startsLine = false := fun u hu => hts u (List.mem_cons_of_mem t hu)
    by_cases hk : t.kind = stop
    · obtain ⟨out, hreact, hout⟩ := hstop text t hl hk
      have hrest : (programFrom isolating
            ([.restOfLine (p.settle caller (some text)).2] ++ rest) ts).filter Instr.isCounted =
          ((p.settle caller (some text)).2 ++ finish rest).filter Instr.isCounted :=
        filter_programFrom_restOfLine isolating _ rest hts'
      rw [List.takeWhile_cons_of_neg (by simpa using hk), Token.valueOf_nil, List.append_nil]
      simp only [programFrom, feed, hreact, List.filter_append, hout, hrest, finish,
        List.flatMap_cons, hend, List.append_assoc]
    · rw [List.takeWhile_cons_of_pos (by simpa using hk), Token.valueOf_cons, ← List.append_assoc]
      simp only [programFrom, feed, hmore text t hl hk]
      rw [filter_consume_append]
      exact ih (text ++ t.value) hts'

/-- **Arguments.** The argument of a macro is settled once, wherever on the line it ends.

**Proof sketch.** Blanks before the argument are skipped, by induction. A quote or any other token
then begins it, and it is gathered up to the second quote or to a blank. -/
theorem filter_programFrom_argument (isolating : Bool) (p : Purpose) (caller : Token)
    (rest : List Frame) (hts : ∀ t ∈ ts, t.startsLine = false) :
    (programFrom isolating (.argument p caller :: rest) ts).filter Instr.isCounted =
      ((p.settle caller (Token.firstArgument? ts)).1 ++
        (p.settle caller (Token.firstArgument? ts)).2 ++ finish rest).filter Instr.isCounted := by
  induction ts with
  | nil => rfl
  | cons t ts ih =>
    have hl := hts t List.mem_cons_self
    have hts' : ∀ u ∈ ts, u.startsLine = false := fun u hu => hts u (List.mem_cons_of_mem t hu)
    simp only [programFrom, feed, Frame.react, hl, Bool.false_eq_true, if_false,
      Token.firstArgument?]
    by_cases hblank : t.kind = .blank
    · simp only [if_pos hblank]
      rw [filter_consume_append]
      exact ih hts'
    by_cases hquote : t.kind = .quote
    · simp only [if_neg hblank, if_pos hquote]
      -- a quoted argument goes on to the closing quote, blanks and all
      rw [filter_consume_append]
      refine filter_programFrom_gathered isolating p caller (.quotedArgument p caller) .quote
        ?_ ?_ (fun _ => rfl) [] rest hts'
      · intro text u hu hk
        simp only [Frame.react, hu, Bool.false_eq_true, if_false, if_neg hk]
      · intro text u hu hk
        refine ⟨.consume u :: (p.settle caller (some text)).1, ?_, rfl⟩
        simp only [Frame.react, hu, Bool.false_eq_true, if_false, if_pos hk]
    · simp only [if_neg hblank, if_neg hquote]
      -- a bare argument begins with this token and goes on to the next blank
      rw [filter_consume_append]
      refine filter_programFrom_gathered isolating p caller (.bareArgument p caller) .blank
        ?_ ?_ (fun _ => rfl) t.value rest hts'
      · intro text u hu hk
        simp only [Frame.react, hu, Bool.false_eq_true, if_false, if_neg hk]
      · intro text u hu hk
        refine ⟨(p.settle caller (some text)).1 ++ [.consume u], ?_, ?_⟩
        · simp only [Frame.react, hu, Bool.false_eq_true, if_false, if_pos hk]
        · rw [List.filter_append]
          exact List.append_nil _

/-! ## Lines of macros -/

/-- A macro at the beginning contributes what its call and the frames of its call do. The break
before it, at the start of a line, does not count. -/
theorem counted_cons_call (hk : t.kind = .macroName) (ts : List Token) :
    counted isolating (t :: ts) =
      (Step.call isolating t).out.filter Instr.isCounted ++
        (programFrom isolating (Step.call isolating t).frames ts).filter Instr.isCounted := by
  have htop : (Step.top isolating t).out.filter Instr.isCounted =
        (Step.call isolating t).out.filter Instr.isCounted ∧
      (Step.top isolating t).frames = (Step.call isolating t).frames := by
    simp only [Step.top, hk]
    split
    · exact ⟨rfl, rfl⟩
    · exact ⟨rfl, rfl⟩
  simp only [counted, program, programFrom, feed, List.filter_append, htop.1, htop.2]

/-- Reading an amount brings no instruction that counts, or just the fault of a number, and then no
amount. -/
theorem readAmount_counted (t : Token) (argument : Option Text) :
    (readAmount t argument).1.filter Instr.isCounted = [] ∨
      ((readAmount t argument).1.filter Instr.isCounted = [.fault .numberOverflow] ∧
        (readAmount t argument).2 = none) := by
  cases argument with
  | none => exact Or.inl rfl
  | some argument =>
    simp only [readAmount, readNumber]
    cases Numeral.ofText? argument with
    | none => exact Or.inl rfl
    | some x =>
      cases hx : x.toInt? with
      | none => exact Or.inr ⟨by simp [hx, Instr.isCounted], by simp [hx]⟩
      | some m => exact Or.inl (by simp [hx])

/-- The amount of the macro that closes scopes is the number of them, or the number is too large.
Without an argument, or with one that is no number, it is one scope. -/
theorem readAmount_of_closeCount? (t : Token) (ts : List Token) :
    match closeCount? ts with
    | some n => (readAmount t (Token.argument? ts)).1.filter Instr.isCounted = [] ∧
        (readAmount t (Token.argument? ts)).2.getD 1 = n
    | none => (readAmount t (Token.argument? ts)).1.filter Instr.isCounted =
        [.fault .numberOverflow] := by
  unfold closeCount?
  cases Token.argument? ts with
  | none => exact ⟨rfl, rfl⟩
  | some argument =>
    simp only [readAmount, readNumber]
    cases Numeral.ofText? argument with
    | none => exact ⟨rfl, rfl⟩
    | some x =>
      cases hx : x.toInt? with
      | none => simp [hx, Instr.isCounted]
      | some m => simp [hx]

/-- The line of the macro that closes scopes counts for one instruction, to close as many as it
says, or for the fault of a number that is too large. -/
theorem counted_closeMargin (isolating : Bool) (h : t.called? = some .closeMargin)
    (ts : List Token) :
    match closeCount? ts with
    | some n => counted isolating (t :: Token.restOfLine ts) = [.closeMargins n t]
    | none => ∃ more, counted isolating (t :: Token.restOfLine ts) =
        .fault .numberOverflow :: more := by
  have hk := Token.kind_of_called? h
  rw [Token.called?_of_kind hk] at h
  have hline := filter_programFrom_argument isolating .closeMargin t []
    fun u (hu : u ∈ Token.restOfLine ts) => Token.startsLine_of_mem_restOfLine hu
  have hcall : counted isolating (t :: Token.restOfLine ts) =
      (readAmount t (Token.argument? ts)).1.filter Instr.isCounted ++
        [.closeMargins ((readAmount t (Token.argument? ts)).2.getD 1) t] := by
    rw [counted_cons_call hk]
    simp only [Step.call, h, hline, List.filter_append]
    exact List.append_nil _
  have hamount := readAmount_of_closeCount? t ts
  rw [hcall]
  split
  · rename_i n hn
    rw [hn] at hamount
    rw [hamount.1, hamount.2, List.nil_append]
  · rename_i hn
    rw [hn] at hamount
    rw [hamount]
    exact ⟨_, rfl⟩

/-- The line of the macro that opens a scope counts for one instruction, or for the fault of a
number that is too large. -/
theorem counted_openMargin (isolating : Bool) (h : t.called? = some .openMargin) (ts : List Token) :
    (∃ amount, counted isolating (t :: Token.restOfLine ts) = [.openMargin amount]) ∨
      ∃ more, counted isolating (t :: Token.restOfLine ts) = .fault .numberOverflow :: more := by
  have hk := Token.kind_of_called? h
  rw [Token.called?_of_kind hk] at h
  have hline := filter_programFrom_argument isolating .openMargin t []
    fun u (hu : u ∈ Token.restOfLine ts) => Token.startsLine_of_mem_restOfLine hu
  have hcall : counted isolating (t :: Token.restOfLine ts) =
      (readAmount t (Token.argument? ts)).1.filter Instr.isCounted ++
        [.openMargin ((readAmount t (Token.argument? ts)).2.map Int.ofNat)] := by
    rw [counted_cons_call hk]
    simp only [Step.call, h, hline, List.filter_append]
    exact List.append_nil _
  rw [hcall]
  rcases readAmount_counted t (Token.argument? ts) with hnil | ⟨hfault, -⟩
  · exact Or.inl ⟨_, by rw [hnil, List.nil_append]⟩
  · exact Or.inr ⟨_, by rw [hfault, List.singleton_append]⟩

/-- On the rest of a line there are no macros: they start their lines. -/
theorem kind_ne_macroName_of_mem_restOfLine (hts : ∀ u ∈ ts, u.IsPlaced)
    (hu : u ∈ Token.restOfLine ts) : u.kind ≠ .macroName := by
  intro hk
  have hl := (hts u ((List.takeWhile_sublist _).subset hu)).startsLine_of_macroName hk
  rw [Token.startsLine_of_mem_restOfLine hu] at hl
  exact Bool.noConfusion hl

/-- Text of one line that is read with a stack which is free of a sort. -/
theorem programFrom_free (isolating : Bool) (hP : IsSortOfCounted P) (hfs : IsTextual P fs)
    (hts : ∀ t ∈ ts, t.kind ≠ .macroName) : NoneOf P (programFrom isolating fs ts) := by
  induction ts generalizing fs with
  | nil => exact finish_free hP.stored hfs
  | cons t ts ih =>
    obtain ⟨hout, hframes⟩ := feed_textual isolating hP hfs (hts t List.mem_cons_self)
    exact hout.append (ih hframes fun u hu => hts u (List.mem_cons_of_mem t hu))

/-- The line of a heading counts for nothing where one section is isolated. In a whole document it
closes all scopes and opens that of its section.

**Proof sketch.** Where a section is isolated, the title is an argument, whose use does not count.
Elsewhere it is shown as text, which does not count either; the two instructions come before it and
behind it. -/
theorem counted_heading (isolating : Bool) (h : t.called? = some .heading)
    (hts : ∀ u ∈ ts, u.IsPlaced) :
    counted isolating (t :: Token.restOfLine ts) =
      if isolating then [] else [.clearMargins, .sectionMargin] := by
  have hP := isSortOfCounted_isCounted
  have hk := Token.kind_of_called? h
  rw [Token.called?_of_kind hk] at h
  have hline : ∀ u ∈ Token.restOfLine ts, u.IsPlaced :=
    fun u hu => hts u ((List.takeWhile_sublist _).subset hu)
  rw [counted_cons_call hk]
  cases isolating with
  | true =>
    have hfs : IsTextual Instr.isCounted [.argument .title t] := by
      simp [IsTextual, Frame.IsFreeOf, NoneOf, Purpose.settle, Instr.isCounted, Instr.isMargin]
    have hfree := programFrom_free true hP hfs
      fun u hu => kind_ne_macroName_of_mem_restOfLine hts hu
    simp only [Step.call, h, if_true, hfree.filter_eq]
    rfl
  | false =>
    have htitle : IsTextual Instr.isCounted [.argumentsOrLine] := by
      simp [IsTextual, Frame.IsFreeOf]
    have hstored : ∀ f ∈ [Frame.afterwards [.closeScope, .sectionMargin, .setIndent 0, .lineBreak]],
        f.IsAfterwards := by simp [Frame.IsAfterwards]
    have hsection := filter_programFrom_textual false hP htitle hstored hline
    have htext : counted false (Token.restOfLine ts ++ []) = counted false [] :=
      counted_restOfLine_append false (fun u hu => Token.startsLine_of_mem_restOfLine hu)
        (by simpa using hline)
    rw [List.append_nil] at htext
    simp only [List.singleton_append] at hsection
    simp only [Step.call, h, Bool.false_eq_true, if_false, hsection]
    change _ ++ (_ ++ counted false (Token.restOfLine ts)) = _
    rw [htext]
    rfl

/-- The arguments of other macros open and close no scopes. -/
theorem Purpose.settle_free (t : Token) (argument : Option Text) (hopen : p ≠ .openMargin)
    (hclose : p ≠ .closeMargin) :
    NoneOf Instr.isMargin ((p.settle t argument).1 ++ (p.settle t argument).2) :=
  p.settle_noneOf (fun _ _ hi => hi) t argument (fun h => absurd h hopen)
    fun h => absurd h hclose

/-- The lines of all other macros open and close no scopes.

**Proof sketch.** By cases on the macro. That of a tagged paragraph stands apart, since a frame for
the tag is below its argument; all the others leave frames that text completes. -/
theorem counted_other_free (isolating : Bool) (hk : t.kind = .macroName)
    (hheading : t.called? ≠ some .heading)
    (hopen : t.called? ≠ some .openMargin) (hclose : t.called? ≠ some .closeMargin)
    (hts : ∀ u ∈ ts, u.IsPlaced) :
    NoneOf Instr.isMargin (counted isolating (t :: Token.restOfLine ts)) := by
  rw [Token.called?_of_kind hk] at hheading hopen hclose
  have hline : ∀ u ∈ Token.restOfLine ts, u.startsLine = false :=
    fun u hu => Token.startsLine_of_mem_restOfLine hu
  rw [counted_cons_call hk]
  by_cases htag : Macro.ofName? t.value = some .tagged
  · -- behind the argument a tag is waited for, but the line ends before that
    have hargument := filter_programFrom_argument isolating .tag t
      [.tag, .afterwards [.closeScope]] hline
    have hsettle := Purpose.settle_free (p := .tag) t
      (Token.firstArgument? (Token.restOfLine ts)) (by simp) (by simp)
    simp only [Step.call, htag, hargument]
    intro i hi
    rcases List.mem_append.mp hi with hi | hi
    · obtain rfl := List.mem_singleton.mp (List.mem_filter.mp hi).1
      rfl
    · rcases List.mem_append.mp (List.mem_filter.mp hi).1 with hi | hi
      · exact hsettle i hi
      · obtain rfl := List.mem_singleton.mp hi
        rfl
  · have hcall : NoneOf Instr.isMargin (Step.call isolating t).out ∧
        IsTextual Instr.isMargin (Step.call isolating t).frames := by
      unfold Step.call
      split
      case h_2 h => exact absurd h hheading
      case h_8 h => exact absurd h htag
      case h_14 h => exact absurd h hopen
      case h_15 h => exact absurd h hclose
      case h_4 | h_9 | h_10 =>
        exact ⟨by simp [NoneOf, Instr.isMargin],
          by simp [IsTextual, Frame.IsFreeOf, Purpose.settle_free]⟩
      all_goals
        exact ⟨by simp [NoneOf, Instr.isMargin],
          by simp [IsTextual, Frame.IsFreeOf, NoneOf, Instr.isMargin]⟩
    have hfree := programFrom_free isolating isSortOfCounted_isMargin hcall.2
      fun u hu => kind_ne_macroName_of_mem_restOfLine hts hu
    intro i hi
    rcases List.mem_append.mp hi with hi | hi
    · exact hcall.1 i (List.mem_filter.mp hi).1
    · exact hfree i (List.mem_filter.mp hi).1

/-! ## Counting along the lines -/

/-- Counted instructions that open and close nothing leave the number as it is, or the first of them
is the fault of a number. -/
theorem countScopes_of_free {is : List Instr} (hcounted : ∀ i ∈ is, i.isCounted = true)
    (hfree : NoneOf Instr.isMargin is) (d : Nat) :
    countScopes d is = .ok d ∨ countScopes d is = .error .numberOverflow := by
  cases is with
  | nil => exact Or.inl rfl
  | cons i is =>
    have hi : i = .fault .numberOverflow := by
      simpa [Instr.isCounted, hfree i List.mem_cons_self] using hcounted i List.mem_cons_self
    subst hi
    exact Or.inr rfl

/-- **One line.** A macro opens and closes scopes as its name and its argument say, or a number on
its line is too large.

**Proof sketch.** By the macros that count, with what their lines count for. All other lines count
for nothing. -/
theorem countScopes_line (isolating : Bool) (hk : t.kind = .macroName)
    (hts : ∀ u ∈ ts, u.IsPlaced) (d : Nat) :
    countScopes d (counted isolating (t :: Token.restOfLine ts)) = .error .numberOverflow ∨
      match t.called? with
      | some .openMargin =>
        countScopes d (counted isolating (t :: Token.restOfLine ts)) = .ok (d + 1)
      | some .closeMargin =>
        ∃ n, closeCount? ts = some n ∧
          countScopes d (counted isolating (t :: Token.restOfLine ts)) =
            if d < n then .error (.marginUnderflow t) else .ok (d - n)
      | some .heading =>
        countScopes d (counted isolating (t :: Token.restOfLine ts)) =
          .ok (if isolating then d else 1)
      | _ => countScopes d (counted isolating (t :: Token.restOfLine ts)) = .ok d := by
  split
  · rename_i h
    -- one scope is opened, unless the amount overflows
    rcases counted_openMargin isolating h ts with ⟨amount, heq⟩ | ⟨more, heq⟩
    · rw [heq]
      exact Or.inr rfl
    · rw [heq]
      exact Or.inl rfl
  · rename_i h
    -- the scopes are closed at once, and the fault is that there are too few
    have hline := counted_closeMargin isolating h ts
    cases hn : closeCount? ts with
    | none =>
      rw [hn] at hline
      obtain ⟨more, heq⟩ := hline
      rw [heq]
      exact Or.inl rfl
    | some n =>
      rw [hn] at hline
      refine Or.inr ⟨n, rfl, ?_⟩
      rw [hline]
      simp only [countScopes, Instr.faultAt?]
      by_cases hlt : d < n
      · simp [hlt]
      · simp [hlt, Instr.scopesAfter]
  · rename_i h
    -- where a section is picked a heading leaves the scopes alone; elsewhere its margin is the only
    -- one
    rw [counted_heading isolating h hts]
    cases isolating with
    | true => exact Or.inr rfl
    | false => exact Or.inr rfl
  · rename_i hopen hclose hheading
    -- no other macro touches a margin
    have hfree := counted_other_free isolating hk hheading hopen hclose hts
    exact (countScopes_of_free (fun i hi => (List.mem_filter.mp hi).2) hfree d).symm

/-- A document has a section margin if its first token is a heading or the others have one, unless
one section is isolated. -/
theorem hasSectionMargin_cons (isolating : Bool) (t : Token) (ts : List Token) :
    hasSectionMargin isolating (t :: ts) =
      (hasSectionMargin isolating [t] || hasSectionMargin isolating ts) := by
  simp [hasSectionMargin, Bool.and_or_distrib_left]

/-- A macro that is read without a fault keeps to the count: there are as many scopes as it says,
and so many more as there were before, or that of its section.

**Proof sketch.** By cases on what the line counts for. The count and the number of scopes go up and
down together; at a heading the count starts with the scope of the section, whatever it was. -/
theorem scopesAfter_le_of_countScopes (hk : t.kind = .macroName) (hts : ∀ u ∈ ts, u.IsPlaced)
    (h : countScopes d (counted isolating (t :: Token.restOfLine ts)) = .ok e) (hle : o ≤ d)
    (hge : d ≤ o + k) :
    t.scopesAfter isolating ts o ≤ e ∧
      e ≤ t.scopesAfter isolating ts o + (if hasSectionMargin isolating [t] then 1 else k) := by
  have hstep := (countScopes_line isolating hk hts d).resolve_left (by rw [h]; simp)
  rw [h] at hstep
  simp only [Token.scopesAfter, hasSectionMargin, List.any_cons, List.any_nil, Bool.or_false]
  split at hstep
  · rename_i hcalled
    obtain rfl := Except.ok.inj hstep
    simp only [hcalled]
    exact ⟨by omega, by simp; omega⟩
  · rename_i hcalled
    obtain ⟨n, hn, hstep⟩ := hstep
    split at hstep
    · exact absurd hstep (by simp)
    · obtain rfl := Except.ok.inj hstep
      simp only [hcalled, hn, Option.getD_some]
      exact ⟨by omega, by simp; omega⟩
  · rename_i hcalled
    obtain rfl := Except.ok.inj hstep
    cases isolating with
    | true => simpa [hcalled] using ⟨hle, hge⟩
    | false => simp [hcalled]
  · rename_i hopen hclose hheading
    obtain rfl := Except.ok.inj hstep
    have hne : ¬ t.called? = some .heading := hheading
    simpa [hne] using ⟨hle, hge⟩

/-- **How many scopes are open.** Tokens that are read without a fault leave as many scopes open as
their macros say, and one more at most, that of a section.

**Proof sketch.** Induction on the tokens. Text contributes nothing, and what is closed of one count
is closed of the other. -/
theorem openScopes_le_of_countScopes (hts : ∀ u ∈ ts, u.IsPlaced)
    (h : countScopes d (counted isolating ts) = .ok e) (hle : o ≤ d) (hge : d ≤ o + k) :
    openScopes isolating o ts ≤ e ∧
      e ≤ openScopes isolating o ts + (if hasSectionMargin isolating ts then 1 else k) := by
  induction ts generalizing d o k with
  | nil =>
    obtain rfl : d = e := Except.ok.inj h
    exact ⟨hle, by simpa [hasSectionMargin, openScopes] using hge⟩
  | cons t ts ih =>
    have hts' : ∀ u ∈ ts, u.IsPlaced := fun u hu => hts u (List.mem_cons_of_mem t hu)
    by_cases hk : t.kind = .macroName
    · rw [counted_cons_line (hts t List.mem_cons_self) hts'] at h
      obtain ⟨c, hline, hmore⟩ := countScopes_append_eq_ok_iff.mp h
      obtain ⟨hle', hge'⟩ := scopesAfter_le_of_countScopes hk hts' hline hle hge
      have hrest := ih hts' hmore hle' hge'
      rw [hasSectionMargin_cons]
      cases hsection : hasSectionMargin isolating ts with
      | true => simpa [openScopes, hsection] using hrest
      | false => simpa [openScopes, hsection] using hrest
    · have hcalled : t.called? = none := if_neg hk
      rw [counted_cons_text hk hts'] at h
      have hrest := ih hts' h hle hge
      simpa [openScopes, Token.scopesAfter, hasSectionMargin, hcalled] using hrest

/-- A line that closes more scopes than are open is that of a macro which closes so many. No other
line ends a count in that way. -/
theorem closeCount?_of_countScopes_eq_error (hk : u.kind = .macroName)
    (hts : ∀ v ∈ ts, v.IsPlaced)
    (h : countScopes d (counted isolating (u :: Token.restOfLine ts)) =
      .error (.marginUnderflow t)) :
    u = t ∧ u.called? = some .closeMargin ∧ ∃ n, closeCount? ts = some n ∧ d < n := by
  have hstep := (countScopes_line isolating hk hts d).resolve_left (by rw [h]; simp)
  rw [h] at hstep
  split at hstep
  · exact absurd hstep (by simp)
  · rename_i hcalled
    obtain ⟨n, hn, hstep⟩ := hstep
    split at hstep
    · rename_i hlt
      obtain rfl : t = u := by simpa using hstep
      exact ⟨rfl, hcalled, n, hn, hlt⟩
    · exact absurd hstep (by simp)
  · exact absurd hstep (by simp)
  · exact absurd hstep (by simp)

/-- Where a program closes more scopes than are open, one of the macros does so.

**Proof sketch.** Induction on the tokens: the first macro whose line has the fault is the one. -/
theorem exists_of_countScopes_eq_error (hts : ∀ u ∈ ts, u.IsPlaced)
    (h : countScopes d (counted isolating ts) = .error (.marginUnderflow t)) :
    ∃ before after e n, ts = before ++ t :: after ∧ t.called? = some .closeMargin ∧
      countScopes d (counted isolating before) = .ok e ∧ closeCount? after = some n ∧ e < n := by
  induction ts generalizing d with
  | nil => exact absurd h (by simp [counted, program, programFrom, finish, countScopes])
  | cons u ts ih =>
    have hu := hts u List.mem_cons_self
    have hts' : ∀ v ∈ ts, v.IsPlaced := fun v hv => hts v (List.mem_cons_of_mem u hv)
    by_cases hk : u.kind = .macroName
    · rw [counted_cons_line hu hts', countScopes_append] at h
      cases hline : countScopes d (counted isolating (u :: Token.restOfLine ts)) with
      | error cause =>
        rw [hline] at h
        obtain rfl := Except.error.inj h
        obtain ⟨rfl, hcalled, n, hn, hlt⟩ := closeCount?_of_countScopes_eq_error hk hts' hline
        exact ⟨[], ts, d, n, rfl, hcalled, rfl, hn, hlt⟩
      | ok c =>
        rw [hline] at h
        obtain ⟨before, after, e, n, rfl, hcalled, hbefore, hn, hlt⟩ := ih hts' h
        refine ⟨u :: before, after, e, n, rfl, hcalled, ?_, hn, hlt⟩
        have hl : t.startsLine = true := (hts' t (by simp)).startsLine_of_macroName
          (Token.kind_of_called? hcalled)
        rw [Token.restOfLine_append before hl] at hline
        rw [counted_cons_line hu fun v hv => hts' v (List.mem_append_left _ hv)]
        exact countScopes_append_eq_ok_iff.mpr ⟨c, hline, hbefore⟩
    · rw [counted_cons_text hk hts'] at h
      obtain ⟨before, after, e, n, rfl, hcalled, hbefore, hn, hlt⟩ := ih hts' h
      refine ⟨u :: before, after, e, n, rfl, hcalled, ?_, hn, hlt⟩
      rw [counted_cons_text hk fun v hv => hts' v (List.mem_append_left _ hv)]
      exact hbefore

/-- **A macro that closes scopes**, where it is reached: the number of them is too large for a
double, or more than are open, or they are closed and the program goes on.

**Proof sketch.** The count goes through what comes before and comes to the line of the macro. What
that line counts for decides. -/
theorem countScopes_closeMargin (hts : ∀ u ∈ ts ++ t :: us, u.IsPlaced)
    (hcalled : t.called? = some .closeMargin)
    (hbefore : countScopes d (counted isolating ts) = .ok e) :
    countScopes d (counted isolating (ts ++ t :: us)) =
      match closeCount? us with
      | none => .error .numberOverflow
      | some n =>
        if e < n then .error (.marginUnderflow t)
        else countScopes (e - n) (counted isolating us) := by
  have ht := hts t (by simp)
  have hus : ∀ u ∈ us, u.IsPlaced :=
    fun u hu => hts u (List.mem_append_right _ (List.mem_cons_of_mem t hu))
  have hl := ht.startsLine_of_macroName (Token.kind_of_called? hcalled)
  have hline := counted_closeMargin isolating hcalled us
  rw [counted_append (fun u hu => hts u (List.mem_append_left _ hu)) ht hl hus,
    counted_cons_line ht hus, countScopes_append, hbefore]
  cases hn : closeCount? us with
  | none =>
    rw [hn] at hline
    obtain ⟨more, hmore⟩ := hline
    rw [hmore]
    rfl
  | some n =>
    rw [hn] at hline
    rw [hline]
    by_cases hlt : e < n
    · simp [Except.bind, countScopes, Instr.faultAt?, hlt]
    · simp [Except.bind, countScopes, Instr.faultAt?, Instr.scopesAfter, hlt]

end Manpage

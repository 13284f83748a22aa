import Manpage.Proofs.Program.Margins
import Manpage.Render

/-!
# Macros that close too many margin scopes

An interpretation that closes more margin scopes than were opened fails at the macro that does so.
Where one section is isolated, the scopes that are open are those that were opened and not closed by
macros before. In a whole document a heading closes all of them, and the margin that it then opens
for its section is one more scope.

## Main results

* `Manpage.interpretSource_overclosed` — where and when an interpretation fails.
* `Manpage.not_forall_overclosed_iff` — a heading in a whole document closes scopes.
-/

namespace Manpage

variable {source : Text} {before after ts : List Token} {t : Token} {isolating : Bool}
  {requested requested' : Option Section} {width width' : Int} {cause : Fault}

/-! ## The count of an interpretation -/

/-- The faults in the program of tokens are those of numbers, up to the start of any line.

**Proof sketch.** The tokens of a source lead from stage to stage, and where a line starts no escape
is open behind its parenthesis. So the tokens up to there are a sequence of which the program is
sound. -/
theorem eq_numberOverflow_of_mem_program (hsource : Token.ofSource source = before ++ ts)
    (hts : ∀ t ∈ ts.head?, t.startsLine = true) :
    ∀ cause, Instr.fault cause ∈ program isolating before → cause = .numberOverflow := by
  obtain ⟨q, hafter, hopen⟩ := Stage.after_ofSource source
  rw [hsource] at hafter
  obtain ⟨r, hbefore, hrest⟩ := Stage.exists_after_of_append hafter
  have hclosed : r.isOpened = false := by
    cases ts with
    | nil =>
      obtain rfl : r = q := by simpa using hrest
      exact hopen
    | cons t ts =>
      simp only [Stage.after, Option.bind_eq_some_iff] at hrest
      obtain ⟨p, hnext, -⟩ := hrest
      rcases Stage.next_cases hnext with ⟨-, hr, -⟩ | ⟨hl, -, -⟩
      · exact hr
      · rw [hts t rfl] at hl
        exact Bool.noConfusion hl
  have hsound := (program_carries_of_after isolating hbefore hclosed fun _ h => h).sound
  exact fun cause hcause => hsound _ hcause

/-- The tokens of a source up to the start of a line, interpreted: a fault is found by counting. -/
theorem fault_interpret_eq_some_iff (hsource : Token.ofSource source = before ++ ts)
    (hts : ∀ t ∈ ts.head?, t.startsLine = true) :
    ((Machine.fresh (Page.ofWidth width) requested).interpret before).fault = some cause ↔
      countScopes 0 (counted requested.isSome before) = .error cause := by
  rw [counted, countScopes_counted (eq_numberOverflow_of_mem_program hsource hts)]
  exact Machine.fault_run_eq_some_iff

/-- The tokens of a source up to the start of a line are interpreted without a fault where the count
of their scopes comes to its end. -/
theorem fault_interpret_eq_none_iff (hsource : Token.ofSource source = before ++ ts)
    (hts : ∀ t ∈ ts.head?, t.startsLine = true) :
    ((Machine.fresh (Page.ofWidth width) requested).interpret before).fault = none ↔
      ∃ d, countScopes 0 (counted requested.isSome before) = .ok d := by
  rw [counted, countScopes_counted (eq_numberOverflow_of_mem_program hsource hts)]
  exact Machine.fault_run_eq_none_iff

/-! ## Documents without headings -/

/-- What a macro that is not a heading does is the same in a whole document and where one section is
isolated. -/
theorem Step.call_isolating (hk : t.kind = .macroName) (h : t.called? ≠ some .heading) :
    call true t = call false t := by
  rw [Token.called?_of_kind hk] at h
  unfold call
  split
  case h_2 heading => exact absurd heading h
  all_goals rfl

/-- What a token that is not of a heading does as a word is the same in both. -/
theorem Step.word_isolating (h : t.called? ≠ some .heading) : word true t = word false t := by
  unfold word
  split
  case h_1 hk => exact call_isolating hk h
  all_goals rfl

/-- A frame reacts to a token that is not of a heading in the same way in both. The frame of a tag
stands apart, since it hands macros on. -/
theorem Frame.react_isolating (f : Frame) (h : t.called? ≠ some .heading) :
    f.react true t = f.react false t := by
  have hword := Step.word_isolating h
  cases f with
  | tag =>
    simp only [react, Step.line, Step.run, Step.unit, hword]
    split
    · rfl
    · rename_i hk
      rw [Step.call_isolating hk h]
    · rfl
  | _ =>
    simp only [react, Step.line, Step.run, Step.unit, Step.arguments, Step.argument, Step.inFont,
      hword]

/-- A token that is not of a heading is fed to any stack in the same way in both: by induction on
the stack, one frame after the other. -/
theorem feed_isolating (stack : List Frame) (h : t.called? ≠ some .heading) :
    feed true stack t = feed false stack t := by
  induction stack with
  | nil =>
    have hline : Step.line true t = Step.line false t := by
      simp only [Step.line, Step.run, Step.unit, Step.word_isolating h]
    cases hk : t.kind with
    | macroName => simp only [feed, Step.top, hk, Step.call_isolating hk h]
    | _ => simp only [feed, Step.top, hk, hline]
  | cons f below ih => simp only [feed, Frame.react_isolating f h, ih]

/-- Without a heading the program does not depend on whether a section is isolated. By induction on
the tokens, since only headings are read in two ways. -/
theorem program_isolating (h : ∀ t ∈ ts, t.called? ≠ some .heading) :
    program true ts = program false ts := by
  have hfrom : ∀ stack, programFrom true stack ts = programFrom false stack ts := by
    induction ts with
    | nil => exact fun _ => rfl
    | cons t ts ih =>
      intro stack
      simp only [programFrom, feed_isolating stack (h t List.mem_cons_self),
        ih fun u hu => h u (List.mem_cons_of_mem t hu)]
  exact hfrom []

/-- Without a heading there is one program, whatever is isolated. -/
theorem program_eq_of_not_heading (h : ∀ t ∈ ts, t.called? ≠ some .heading) (b c : Bool) :
    program b ts = program c ts := by
  cases b with
  | true =>
    cases c with
    | true => rfl
    | false => exact program_isolating h
  | false =>
    cases c with
    | true => exact (program_isolating h).symm
    | false => rfl

/-! ## Where interpretations fail -/

/-- **Closing too many scopes.** An interpretation that fails at a macro which closes margin scopes
reaches it without a fault, and the macro closes more scopes than are open. Conversely, where a
macro is reached that closes more scopes than are open, the interpretation fails there; behind a
heading in a whole document, the macro has to close more than these and the scope of the section.
Where the number of scopes is too large for a double, that is the fault.

The fault is the same for all sections that are isolated, and for a whole document without headings
too, whatever the widths.

**Proof sketch.** The fault is found by counting the scopes, to which each line contributes what its
macro says. The count is that of the open scopes, up to the one that a heading opens. -/
theorem interpretSource_overclosed (source : Text) (requested : Option Section) (width : Int) :
    (∀ t, (interpretSource source requested width).fault = some (.marginUnderflow t) →
      ∃ before after n, Token.ofSource source = before ++ t :: after ∧
        t.called? = some .closeMargin ∧
        ((Machine.fresh (Page.ofWidth width) requested).interpret before).fault = none ∧
        closeCount? after = some n ∧ openScopes requested.isSome 0 before < n) ∧
    (∀ before t after n, Token.ofSource source = before ++ t :: after →
      t.called? = some .closeMargin →
      ((Machine.fresh (Page.ofWidth width) requested).interpret before).fault = none →
      closeCount? after = some n →
      openScopes requested.isSome 0 before +
        (if hasSectionMargin requested.isSome before then 1 else 0) < n →
      (interpretSource source requested width).fault = some (.marginUnderflow t)) ∧
    (∀ before t after, Token.ofSource source = before ++ t :: after →
      t.called? = some .closeMargin →
      ((Machine.fresh (Page.ofWidth width) requested).interpret before).fault = none →
      closeCount? after = none →
      (interpretSource source requested width).fault = some .numberOverflow) ∧
    ∀ (requested' : Option Section) (width' : Int),
      (requested'.isSome = requested.isSome ∨
        ∀ t ∈ Token.ofSource source, t.called? ≠ some .heading) →
      (interpretSource source requested' width').fault =
        (interpretSource source requested width).fault := by
  have hplaced : ∀ t ∈ Token.ofSource source, t.IsPlaced :=
    fun t ht => Token.isPlaced_of_mem_ofSource ht
  have hwhole : Token.ofSource source = Token.ofSource source ++ [] := (List.append_nil _).symm
  have hline : ∀ {before after : List Token} {t : Token},
      Token.ofSource source = before ++ t :: after → t.called? = some .closeMargin →
      ∀ u ∈ (t :: after).head?, u.startsLine = true := by
    intro before after t hsource hcalled u hu
    obtain rfl : t = u := by simpa using hu
    exact (hplaced t (by simp [hsource])).startsLine_of_macroName (Token.kind_of_called? hcalled)
  refine ⟨?_, ?_, ?_, ?_⟩
  · intro t hfault
    -- the fault is one of counting scopes, and it is at the macro that closes too many
    have hcount := (fault_interpret_eq_some_iff hwhole (by simp)).mp hfault
    obtain ⟨before, after, d, n, hsource, hcalled, hbefore, hn, hlt⟩ :=
      exists_of_countScopes_eq_error hplaced hcount
    have hopen := openScopes_le_of_countScopes (o := 0) (k := 0)
      (fun u hu => hplaced u (by rw [hsource]; exact List.mem_append_left _ hu)) hbefore
      (Nat.le_refl 0) (Nat.le_refl 0)
    refine ⟨before, after, n, hsource, hcalled, ?_, hn, by omega⟩
    exact (fault_interpret_eq_none_iff hsource (hline hsource hcalled)).mpr ⟨d, hbefore⟩
  · intro before t after n hsource hcalled hreached hn hlt
    obtain ⟨d, hbefore⟩ :=
      (fault_interpret_eq_none_iff hsource (hline hsource hcalled)).mp hreached
    have hopen := openScopes_le_of_countScopes (o := 0) (k := 0)
      (fun u hu => hplaced u (by rw [hsource]; exact List.mem_append_left _ hu)) hbefore
      (Nat.le_refl 0) (Nat.le_refl 0)
    refine (fault_interpret_eq_some_iff hwhole (by simp)).mpr ?_
    rw [hsource] at hplaced ⊢
    -- at most one scope more is open than the macros opened: the margin of a section
    rw [countScopes_closeMargin hplaced hcalled hbefore, hn]
    exact if_pos (by omega)
  · intro before t after hsource hcalled hreached hn
    obtain ⟨d, hbefore⟩ :=
      (fault_interpret_eq_none_iff hsource (hline hsource hcalled)).mp hreached
    refine (fault_interpret_eq_some_iff hwhole (by simp)).mpr ?_
    rw [hsource] at hplaced ⊢
    rw [countScopes_closeMargin hplaced hcalled hbefore, hn]
  · intro requested' width' h
    -- the program depends on whether a section is picked, and only where there is a heading
    have hprogram : program requested'.isSome (Token.ofSource source) =
        program requested.isSome (Token.ofSource source) := by
      rcases h with h | h
      · rw [h]
      · exact program_eq_of_not_heading h _ _
    change (Machine.run _ (program requested'.isSome _)).fault =
      (Machine.run _ (program requested.isSome _)).fault
    rw [hprogram]
    exact Machine.fault_run_congr (by rfl) _

/-- Behind a heading in a whole document no scope is open but that of the section: a macro that
closes two fails, on wide lines as on narrow ones. One that closes 10^309 - 1 has another
fault. -/
theorem interpretSource_overclosed_of_two :
    let t : Token := ⟨.macroName, ['.', 'R', 'E'], true, 3, 1⟩
    (interpretSource ".RS\n.SH X\n.RE 2\n".toList none 80).fault = some (.marginUnderflow t) ∧
      (∃ before after n, Token.ofSource ".RS\n.SH X\n.RE 2\n".toList = before ++ t :: after ∧
        t.called? = some .closeMargin ∧
        ((Machine.fresh (Page.ofWidth 80) none).interpret before).fault = none ∧
        closeCount? after = some n ∧ openScopes false 0 before < n) ∧
      (interpretSource (".RE ".toList ++ List.replicate 309 '9') none 80).fault =
        some .numberOverflow ∧
      (interpretSource ".RS\n.SH X\n.RE 2\n".toList none 2).fault =
        (interpretSource ".RS\n.SH X\n.RE 2\n".toList none 80).fault := by
  intro t
  obtain ⟨hwhere, hfails, -, halike⟩ :=
    interpretSource_overclosed ".RS\n.SH X\n.RE 2\n".toList none 80
  have hfault : (interpretSource ".RS\n.SH X\n.RE 2\n".toList none 80).fault =
      some (.marginUnderflow t) :=
    hfails
      [⟨.macroName, ['.', 'R', 'S'], true, 1, 1⟩, ⟨.macroName, ['.', 'S', 'H'], true, 2, 1⟩,
        ⟨.blank, [' '], false, 2, 4⟩, ⟨.word, ['X'], false, 2, 5⟩]
      t [⟨.blank, [' '], false, 3, 4⟩, ⟨.word, ['2'], false, 3, 5⟩] 2 (by decide +kernel)
      (by decide) (by decide) (by decide) (by decide)
  have hoverflow : (interpretSource (".RE ".toList ++ List.replicate 309 '9') none 80).fault =
      some .numberOverflow :=
    (interpretSource_overclosed (".RE ".toList ++ List.replicate 309 '9') none 80).2.2.1 []
      ⟨.macroName, ['.', 'R', 'E'], true, 1, 1⟩
      [⟨.blank, [' '], false, 1, 4⟩, ⟨.word, List.replicate 309 '9', false, 1, 5⟩]
      (by decide +kernel) (by decide) (by decide) (by decide +kernel)
  exact ⟨hfault, hwhere t hfault, hoverflow, halike none 2 (Or.inl rfl)⟩

/-- A heading in a whole document closes the scopes that were opened before it: of two scopes, none
is left to be closed but that of the section, though two were opened and not closed by macros. -/
theorem not_forall_overclosed_iff :
    ¬ ∀ (source : Text) (requested : Option Section) (width : Int) (before : List Token) (t : Token)
        (after : List Token) (n : Nat),
      Token.ofSource source = before ++ t :: after → t.called? = some .closeMargin →
      ((Machine.fresh (Page.ofWidth width) requested).interpret before).fault = none →
      closeCount? after = some n →
      ((interpretSource source requested width).fault = some (.marginUnderflow t) ↔
        openScopes true 0 before < n) := by
  intro h
  let before : List Token :=
    [⟨.macroName, ['.', 'R', 'S'], true, 1, 1⟩, ⟨.macroName, ['.', 'R', 'S'], true, 2, 1⟩,
      ⟨.macroName, ['.', 'S', 'H'], true, 3, 1⟩, ⟨.blank, [' '], false, 3, 4⟩,
      ⟨.word, ['X'], false, 3, 5⟩]
  let t : Token := ⟨.macroName, ['.', 'R', 'E'], true, 4, 1⟩
  let after : List Token := [⟨.blank, [' '], false, 4, 4⟩, ⟨.word, ['2'], false, 4, 5⟩]
  have htokens : Token.ofSource ".RS\n.RS\n.SH X\n.RE 2\n".toList = before ++ t :: after := by
    decide +kernel
  have hfault : (interpretSource ".RS\n.RS\n.SH X\n.RE 2\n".toList none 40).fault =
      some (.marginUnderflow t) := by
    decide +kernel
  have hopen : openScopes true 0 before = 2 := by decide
  have hclaim := h _ none 40 before t after 2 htokens (by decide) (by decide) (by decide)
  rw [hopen] at hclaim
  exact absurd (hclaim.mp hfault) (by decide)

end Manpage

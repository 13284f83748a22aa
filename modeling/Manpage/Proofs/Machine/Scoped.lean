import Manpage.Proofs.Machine.Core
import Manpage.Proofs.Machine.Plain
import Manpage.Proofs.Program.Scoped

/-!
# Styles that return

A part of a program may end at a fault. Then the scopes that the part has opened are left at once,
and those around it after them. So the end of a part, with or without a fault, is a machine whose
scopes are those at the beginning of the part, and what becomes of the whole program depends on that
machine.

What belongs to a heading, or to a macro with two fonts by turns, is such a part. The outermost
scope that is open within it has the style from before the macro to return to, and while none is
open, that is the style. So the style after the macro is the style before, however the macro ends.

## Main definitions

* `Manpage.Machine.leave` — the innermost scopes left.
* `Manpage.Machine.runPart`, `Manpage.Outcome.andThen` — a part of a program, and the rest.
* `Manpage.Machine.Within` — a machine with so many scopes open within a part.

## Main results

* `Manpage.Machine.run_append_eq_andThen` — a program as a part and the rest.
* `Manpage.Machine.Within.apply` — one instruction.
* `Manpage.Machine.Within.runPart` — a part.
* `Manpage.Machine.exists_interpret_eq_andThen` — the style after a macro with styles of its own.
-/

namespace Manpage

namespace Machine

variable {m : Machine} {i : Instr} {is js : List Instr} {outer inner : List Scope} {saved : Style}
  {n k depth : Nat} {cause : Fault}

/-! ## Parts of programs -/

/-- Leaves the innermost scopes, so many of them, on the way out of a part of a program that a fault
has stopped. -/
def leave (count : Nat) (m : Machine) : Machine :=
  (m.scopes.take count).foldl abandon { m with scopes := m.scopes.drop count }

/-- A part of a program carried out, up to the first fault. At a fault all scopes are left but those
below a depth. -/
def runPart (depth : Nat) (m : Machine) : List Instr → Outcome
  | [] => ⟨m, none⟩
  | i :: more =>
    match m.fault? i with
    | some cause => ⟨(m.apply i).leave ((m.apply i).scopes.length - depth), some cause⟩
    | none => (m.apply i).runPart depth more

end Machine

/-- What follows a part of a program: the other instructions, or, after a fault, the way out of the
scopes that are still open. -/
def Outcome.andThen (o : Outcome) (is : List Instr) : Outcome :=
  match o.fault with
  | some cause => ⟨o.machine.unwind, some cause⟩
  | none => o.machine.run is

namespace Machine

variable {m : Machine} {i : Instr} {is js : List Instr} {outer inner : List Scope} {saved : Style}
  {n k depth : Nat} {cause : Fault}

/-- Scopes that are left have no say in those that are open. -/
theorem foldl_abandon_withScopes (left scopes : List Scope) (m : Machine) :
    { left.foldl abandon m with scopes := scopes } =
      left.foldl abandon { m with scopes := scopes } := by
  induction left generalizing m with
  | nil => rfl
  | cons s left ih =>
    rw [List.foldl_cons, List.foldl_cons, ih]
    cases s <;> rfl

/-- Leaving scopes does not change which scopes are open around them. -/
theorem scopes_foldl_abandon (left : List Scope) (m : Machine) :
    (left.foldl abandon m).scopes = m.scopes := by
  induction left generalizing m with
  | nil => rfl
  | cons s left ih =>
    rw [List.foldl_cons, ih]
    cases s <;> rfl

/-- All scopes are left, also where some of them are left first. -/
theorem unwind_leave (count : Nat) (m : Machine) : (m.leave count).unwind = m.unwind := by
  have hscopes : (m.leave count).scopes = m.scopes.drop count := scopes_foldl_abandon _ _
  unfold unwind
  rw [hscopes, leave, foldl_abandon_withScopes, ← List.foldl_append, List.take_append_drop]

/-- **A program is a part of it and then the rest**, whatever scopes are left first at a fault. By
induction on the part: at a fault the scopes of the part are left, and then the others, which comes
to leaving all of them. -/
theorem run_append_eq_andThen (depth : Nat) (m : Machine) (is js : List Instr) :
    m.run (is ++ js) = (m.runPart depth is).andThen js := by
  induction is generalizing m with
  | nil => rfl
  | cons i is ih =>
    simp only [List.cons_append, run, runPart]
    cases m.fault? i with
    | some cause => simp only [Outcome.andThen, unwind_leave]
    | none => exact ih (m.apply i)

/-! ## Scopes within a part -/

/-- A machine with so many scopes open above the outer ones. The outermost of them is that of a
style, with the given style to return to; without any of them, that is the style of the page. -/
def Within (saved : Style) (outer : List Scope) (n : Nat) (m : Machine) : Prop :=
  ∃ inner, m.scopes = inner ++ outer ∧ inner.length = n ∧
    (inner = [] ∧ m.page.style = saved ∨ ∃ above, inner = above ++ [.style saved])

/-- A machine is within a part of a program where the part begins, with no scope open. -/
theorem within_self (m : Machine) : m.Within m.page.style m.scopes 0 :=
  ⟨[], rfl, rfl, Or.inl ⟨rfl, rfl⟩⟩

/-- Within a scope, the outermost one has the style to return to. -/
theorem Within.exists_above (h : m.Within saved outer n) (hn : n ≠ 0) :
    ∃ above, m.scopes = above ++ .style saved :: outer ∧ above.length + 1 = n := by
  obtain ⟨inner, hscopes, rfl, ⟨rfl, -⟩ | ⟨above, rfl⟩⟩ := h
  · exact absurd rfl hn
  · exact ⟨above, by rw [hscopes, List.append_assoc, List.singleton_append],
      by rw [List.length_append, List.length_singleton]⟩

/-- Within a part, a scope may be open above one that has the style to return to. -/
theorem within_of_above (above : List Scope) (h : m.scopes = above ++ .style saved :: outer) :
    m.Within saved outer (above.length + 1) :=
  ⟨above ++ [.style saved], by rw [h, List.append_assoc, List.singleton_append],
    List.length_append, Or.inr ⟨above, rfl⟩⟩

/-- The same scopes and the same style. -/
theorem Within.congr {m' : Machine} (h : m.Within saved outer n) (hscopes : m'.scopes = m.scopes)
    (hstyle : m'.page.style = m.page.style) : m'.Within saved outer n := by
  unfold Within at h ⊢
  rwa [hscopes, hstyle]

/-- The innermost scope closed: the others stay, and a style returns. -/
theorem scopes_closeScope {s : Scope} (h : m.scopes = s :: outer) :
    (m.apply .closeScope).scopes = outer := by
  cases s with
  | word => rw [apply_closeScope_of_word h]
  | style saved => rw [apply_closeScope_of_style h]
  | tag amount =>
    rw [apply_closeScope_of_tag h]
    exact scopes_eq (core_output _ Page.settings_lineBreak)

/-- The end of a scope stays within the part, with one scope less. If it is the last one, the style
has returned. -/
theorem Within.closeScope (h : m.Within saved outer n) (hn : n ≠ 0) :
    (m.apply .closeScope).Within saved outer (n - 1) := by
  obtain ⟨above, hscopes, rfl⟩ := h.exists_above hn
  cases above with
  | nil =>
    rw [apply_closeScope_of_style hscopes]
    exact ⟨[], rfl, rfl, Or.inl ⟨rfl, rfl⟩⟩
  | cons s above => exact within_of_above above (scopes_closeScope hscopes)

/-- **One instruction** that leads from one depth to another keeps the outer scopes, and the style
that is saved for them.

**Proof sketch.** By cases on the instruction. Those that open a scope do so above the outer ones,
and the first of them saves the style; the depth says that none is closed but these. The style
changes only where one is open. -/
theorem Within.apply (h : m.Within saved outer n) (hi : i.depthAfter n = some k) :
    (m.apply i).Within saved outer k := by
  have henter : ∀ (s : Scope) (f : Page → Page) (_ : n ≠ 0),
      ((m.onPage f).enter s).Within saved outer (n + 1) := by
    intro s f hn
    obtain ⟨above, hscopes, rfl⟩ := h.exists_above hn
    exact within_of_above (s :: above) (congrArg (s :: ·) hscopes)
  cases i with
  | openStyle font =>
    obtain rfl : n + 1 = k := Option.some.inj hi
    -- with no scope above the outer ones the style is the saved one, and the new scope saves it
    -- again
    by_cases hn : n = 0
    · subst hn
      obtain ⟨inner, hscopes, hlength, hinner⟩ := h
      obtain rfl := List.length_eq_zero_iff.mp hlength
      have hstyle : m.page.style = saved := by simpa using hinner
      refine within_of_above [] ?_
      simp only [Machine.apply, enter, hstyle]
      exact congrArg (Scope.style saved :: ·) hscopes
    · exact henter _ _ hn
  | openWord =>
    simp only [Instr.depthAfter, Option.ite_none_left_eq_some, Option.some.injEq] at hi
    obtain ⟨hn, rfl⟩ := hi
    exact henter _ _ hn
  | openTag amount =>
    simp only [Instr.depthAfter, Option.ite_none_left_eq_some, Option.some.injEq] at hi
    obtain ⟨hn, rfl⟩ := hi
    obtain ⟨above, hscopes, rfl⟩ := h.exists_above hn
    have houtput : ((m.onPage fun p => { p with indent := 0 }).output Page.lineBreak).scopes =
        (m.onPage fun p => { p with indent := 0 }).scopes :=
      scopes_eq (core_output _ Page.settings_lineBreak)
    exact within_of_above (_ :: above) (congrArg (_ :: ·) (houtput.trans hscopes))
  | closeScope =>
    simp only [Instr.depthAfter, Option.ite_none_left_eq_some, Option.some.injEq] at hi
    obtain ⟨hn, rfl⟩ := hi
    exact h.closeScope hn
  | setStyle | plainStyle =>
    simp only [Instr.depthAfter, Option.ite_none_left_eq_some, Option.some.injEq] at hi
    obtain ⟨hn, rfl⟩ := hi
    obtain ⟨above, hscopes, rfl⟩ := h.exists_above hn
    exact within_of_above _ hscopes
  | emit | space | blank | beginLine | endLine | emptyLine | lineBreak | blankLine | skipLines =>
    obtain rfl : n = k := Option.some.inj hi
    exact h.congr (scopes_eq (core_apply_of_isOutput m rfl))
      (style_eq (core_apply_of_isOutput m rfl))
  | _ =>
    obtain rfl : n = k := Option.some.inj hi
    exact h.congr rfl rfl

/-- The scopes of a part left: the outer ones stay, and the style returns. The style that comes back
last is the one that the outermost of them saved. -/
theorem Within.leave (h : m.Within saved outer n) :
    (m.leave (m.scopes.length - outer.length)).scopes = outer ∧
      (m.leave (m.scopes.length - outer.length)).page.style = saved := by
  obtain ⟨inner, hscopes, -, hinner⟩ := h
  have hleave : m.leave (m.scopes.length - outer.length) =
      inner.foldl abandon { m with scopes := outer } := by
    rw [Machine.leave, hscopes, List.length_append, Nat.add_sub_cancel, List.take_left,
      List.drop_left]
  rw [hleave]
  refine ⟨scopes_foldl_abandon _ _, ?_⟩
  obtain ⟨rfl, hstyle⟩ | ⟨above, rfl⟩ := hinner
  · exact hstyle
  · rw [List.foldl_append]
    rfl

/-- **A part that closes the scopes it opens.** However it ends, the outer scopes are open
afterwards, and the style is the one to return to.

**Proof sketch.** By induction on the part. If an instruction fails, the scopes above the outer ones
are left; if none does, the part has closed them, as it ends at no depth. -/
theorem Within.runPart (h : m.Within saved outer n) (his : depthAfter n is = some 0) :
    (m.runPart outer.length is).machine.scopes = outer ∧
      (m.runPart outer.length is).machine.page.style = saved := by
  induction is generalizing m n with
  | nil =>
    obtain rfl : n = 0 := Option.some.inj his
    obtain ⟨inner, hscopes, hlength, hinner⟩ := h
    obtain rfl := List.length_eq_zero_iff.mp hlength
    have hstyle : m.page.style = saved := by simpa using hinner
    exact ⟨hscopes, hstyle⟩
  | cons i is ih =>
    obtain ⟨k, hk, hmore⟩ := Option.bind_eq_some_iff.mp his
    have hnext := h.apply hk
    simp only [Machine.runPart]
    cases m.fault? i with
    | some cause => exact hnext.leave
    | none => exact ih hnext hmore

/-! ## Macros with styles of their own -/

/-- **A macro with styles of its own leaves the style as it was.** Wherever a heading, or a macro
with two fonts by turns, stands among any tokens, it is called unless it is swallowed. The
interpretation is then what comes before the call, what belongs to the macro, and the rest. What
belongs to it, carried out by the machine that it is called with, ends with the style and the open
scopes of that machine, with a fault or without.

**Proof sketch.** What belongs to the macro selects fonts within scopes only and closes all of them,
by cases on the frames that read its tokens. Each instruction keeps the style to return to in the
outermost of those scopes. -/
theorem exists_interpret_eq_andThen (m : Machine) (hm : m.consumed = false)
    (before after : List Token) {t : Token} {name : Macro} (hk : t.kind = .macroName)
    (ht : Macro.ofName? t.value = some name) (hname : name.isScoped = true)
    (hcalled : (taker? m.requested.isSome t
      (feedAll m.requested.isSome [] before).frames).any Frame.swallows = false) :
    ∃ (out : List Instr) (below : List Frame),
      let read := feedAll m.requested.isSome [] before
      let part := handler m.requested.isSome t after
      let entry := { m with consumed := true }.run (read.out ++ out)
      let o := entry.machine.runPart entry.machine.scopes.length part.out
      IsCalled m.requested.isSome read.frames t out below ∧
      (entry.fault.isSome = true → m.interpret (before ++ t :: after) = entry) ∧
      (entry.fault = none →
        m.interpret (before ++ t :: after) =
            o.andThen (programFrom m.requested.isSome below part.rest) ∧
          o.machine.page.style = entry.machine.page.style ∧
          o.machine.scopes = entry.machine.scopes) := by
  obtain ⟨out, below, hfeed⟩ := exists_isCalled m.requested.isSome _ hk hcalled
  refine ⟨out, below, ?_⟩
  intro read part entry o
  have hrun : m.interpret (before ++ t :: after) = { m with consumed := true }.run
      ((feedAll m.requested.isSome [] before).out ++ out ++
        (part.out ++ programFrom m.requested.isSome below part.rest)) := by
    rw [← program_append_handler hfeed]
    simp only [interpret, hm]
    rfl
  rw [hrun]
  refine ⟨hfeed, fun hfault => run_append_of_isSome_fault hfault _, fun hfault => ?_⟩
  have hentry : entry = ⟨entry.machine, none⟩ := by rw [← hfault]
  have hdepth : depthAfter 0 part.out = some 0 := depthAfter_handler _ after ht hname
  obtain ⟨hscopes, hstyle⟩ := (within_self entry.machine).runPart hdepth
  exact ⟨(run_append_of_run_eq hentry _).trans (run_append_eq_andThen _ _ _ _), hstyle, hscopes⟩

/-- Two fonts by turns among words in italics: the second argument calls another font macro in the
middle of the line, and a part of an escape that belongs to none stops it. -/
theorem exists_interpret_eq_andThen_of_stray_part :
    let m := Machine.fresh (Page.ofWidth 40) none
    let before : List Token :=
      [⟨.backslash, ['\\'], true, 1, 1⟩, ⟨.command, ['f'], false, 1, 2⟩,
        ⟨.argument, ['I'], false, 1, 3⟩]
    let t : Token := ⟨.macroName, ['.', 'B', 'I'], true, 2, 1⟩
    let stray : Token := ⟨.argument, ['y'], false, 2, 14⟩
    let after : List Token :=
      [⟨.blank, [' '], false, 2, 4⟩, ⟨.word, ['x'], false, 2, 5⟩, ⟨.blank, [' '], false, 2, 6⟩,
        ⟨.macroName, ['.', 'B'], false, 2, 7⟩, ⟨.blank, [' '], false, 2, 9⟩,
        ⟨.quote, ['"'], false, 2, 10⟩, stray]
    let all := m.interpret (before ++ t :: after)
    all.fault = some (.strayPart stray) ∧ all.machine.page.style = Style.plain.set .italic true ∧
      ∃ (out : List Instr) (below : List Frame),
        let read := feedAll false [] before
        let part := handler false t after
        let entry := { m with consumed := true }.run (read.out ++ out)
        let o := entry.machine.runPart entry.machine.scopes.length part.out
        IsCalled false read.frames t out below ∧
        (entry.fault.isSome = true → all = entry) ∧
        (entry.fault = none →
          all = o.andThen (programFrom false below part.rest) ∧
            o.machine.page.style = entry.machine.page.style ∧
            o.machine.scopes = entry.machine.scopes) := by
  intro m before t stray after all
  have hname : Macro.ofName? t.value = some (.alternating .bold .underline) := rfl
  have hcalled : (taker? m.requested.isSome t
      (feedAll m.requested.isSome [] before).frames).any Frame.swallows = false := by
    decide +kernel
  refine ⟨?_, ?_, exists_interpret_eq_andThen m rfl before after rfl hname rfl hcalled⟩
  · decide +kernel
  · decide +kernel

end Machine

end Manpage

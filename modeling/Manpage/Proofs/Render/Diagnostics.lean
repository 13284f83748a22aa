import Manpage.Diagnostic
import Manpage.Proofs.Machine.Warnings
import Manpage.Proofs.Render.Amounts
import Manpage.Proofs.Token.Site

/-!
# Diagnostics on the text they are about

An editor is shown one diagnostic for the fault of a source, if it has one, and then one for each
warning, in the order of their record, which is also that of their lines. Each is about a stretch of
one line: the macro that closes too many margin scopes, the point that begins the line of any other
macro, or the command of an escape.

## Main definitions

* `Manpage.Diagnostic.Covers` — a diagnostic about a stretch of a line of a source.

## Main results

* `Manpage.exists_warnings_interpretSource` — the warnings of a source come from its program.
* `Manpage.diagnose_covers` — the diagnostics of a source.
-/

namespace Manpage

variable {source line before covered more after message : Text} {t : Token} {k : Nat}
  {severity : Severity} {w : Warning}

/-! ## Ranges -/

/-- A diagnostic about a stretch of a line of a source, between what stands before and behind it. -/
structure Diagnostic.Covers (source before covered after : Text) (d : Diagnostic) : Prop where
  exists_line : ∃ k : Nat, d.line = k ∧ source.splitLines[k]? = some (before ++ covered ++ after)
  ne_nil : covered ≠ []
  start_eq : d.start = before.length
  stop_eq : d.stop = before.length + covered.length

/-- A diagnostic at the place of a token covers the beginning of the token. Places are counted from
one in the source and from nought by an editor. -/
theorem Token.StandsOn.covers (h : t.StandsOn line before after)
    (hline : source.splitLines[k]? = some line) (hnumber : t.line = k + 1)
    (hvalue : t.value = covered ++ more) (hne : covered ≠ []) :
    (Diagnostic.ofPlace severity message t.line t.column covered.length).Covers source before
      covered (more ++ after) := by
  have hlength : max 1 covered.length = covered.length :=
    Nat.max_eq_right (List.length_pos_iff.mpr hne)
  refine ⟨⟨k, ?_, ?_⟩, hne, ?_, ?_⟩
  · rw [Diagnostic.ofPlace, hnumber, Int.add_sub_cancel]
  · rw [hline, h.line_eq, hvalue]
    simp only [List.append_assoc]
  · rw [Diagnostic.ofPlace, h.column_eq, Int.add_sub_cancel]
  · rw [Diagnostic.ofPlace, h.column_eq, Int.add_sub_cancel, hlength]

/-! ## Warnings -/

/-- **The warnings of a source come from its program**, as far as the interpretation comes. -/
theorem exists_warnings_interpretSource (source : Text) (requested : Option Section)
    (width : Int) :
    ∃ done, done <+: program requested.isSome (Token.ofSource source) ∧
      ((interpretSource source requested width).fault = none →
        done = program requested.isSome (Token.ofSource source)) ∧
      (interpretSource source requested width).machine.warnings = warningsOf done :=
  Machine.exists_warnings_run
    { Machine.fresh (Page.ofWidth width) requested with consumed := true } _

/-- Warnings are about macros and commands of the source. The warnings are those of instructions
that are carried out, and the program is sound. -/
theorem exists_token_of_mem_warnings {requested : Option Section} {width : Int}
    (hw : w ∈ (interpretSource source requested width).machine.warnings) :
    ∃ anomaly t, w = Warning.about anomaly t ∧
      .warn anomaly t ∈ program requested.isSome (Token.ofSource source) ∧
      t ∈ Token.ofSource source ∧ (t.kind = .macroName ∨ t.kind = .command) := by
  obtain ⟨done, hdone, -, hwarnings⟩ := exists_warnings_interpretSource source requested width
  rw [hwarnings] at hw
  obtain ⟨⟨anomaly, t⟩, hmem, rfl⟩ := List.mem_map.mp hw
  have hinstr : Instr.warn anomaly t ∈ program requested.isSome (Token.ofSource source) :=
    hdone.subset (mem_anomaliesOf.mp hmem)
  exact ⟨anomaly, t, rfl, hinstr, (program_carries requested.isSome source).sound _ hinstr⟩

/-- Where no section is asked for, warnings are recorded in the order of their lines. -/
theorem pairwise_warnings_interpretSource (source : Text) (width : Int) :
    (interpretSource source none width).machine.warnings.Pairwise fun v w => v.line ≤ w.line := by
  obtain ⟨done, hdone, -, hwarnings⟩ := exists_warnings_interpretSource source none width
  have hpairwise : (anomaliesOf done).Pairwise fun p q => p.2.line ≤ q.2.line :=
    (pairwise_anomaliesOf_ofLines 1 source.splitLines).sublist
      (hdone.sublist.filterMap Instr.anomaly?)
  rw [hwarnings, warningsOf, List.pairwise_map]
  exact hpairwise

/-- A warning covers one character, the point of a macro or the command of an escape.

**Proof sketch.** A warning is about a token of the source, which is a macro or a command. A macro
stands at the beginning of its line, with the point; a command is one character behind a backslash.
-/
theorem exists_covers_ofWarning {requested : Option Section} {width : Int}
    (hw : w ∈ (interpretSource source requested width).machine.warnings) :
    ∃ before c after, (Diagnostic.ofWarning w).Covers source before [c] after ∧
      ∃ t ∈ Token.ofSource source, t.line = w.line ∧ t.column = w.column ∧
        ((t.kind = .macroName ∧ before = [] ∧ c = '.') ∨
          (t.kind = .command ∧ t.value = [c] ∧ before.getLast? = some '\\')) := by
  obtain ⟨anomaly, t, rfl, -, ht, hkind⟩ := exists_token_of_mem_warnings hw
  obtain ⟨k, line, before, after, hline, hnumber, hstands⟩ := Token.exists_standsOn ht
  rcases hkind with hk | hk
  · obtain ⟨hbefore, hpoint⟩ := hstands.of_macroName hk
    obtain ⟨more, hvalue⟩ := List.head?_eq_some_iff.mp hpoint
    have hcut : t.value = ['.'] ++ more := hvalue
    exact ⟨before, '.', more ++ after, hstands.covers hline hnumber hcut (List.cons_ne_nil _ _),
      t, ht, rfl, rfl, Or.inl ⟨hk, hbefore, rfl⟩⟩
  · obtain ⟨hbackslash, hlength⟩ := hstands.of_command hk
    obtain ⟨c, hvalue⟩ := List.length_eq_one_iff.mp hlength
    have hcut : t.value = [c] ++ [] := hvalue
    exact ⟨before, c, after, hstands.covers hline hnumber hcut (List.cons_ne_nil _ _),
      t, ht, rfl, rfl, Or.inr ⟨hk, hvalue, hbackslash⟩⟩

/-! ## Faults -/

/-- The fault of a source that is about margins covers the macro that closes them. A macro stands at
the beginning of its line. -/
theorem exists_covers_ofFault (ht : t ∈ Token.ofSource source) (hk : t.kind = .macroName)
    (hvalue : t.value = ['.', 'R', 'E']) :
    ∃ after, (Diagnostic.ofFault source (.marginUnderflow t)).Covers source [] ['.', 'R', 'E']
      after := by
  obtain ⟨k, line, before, after, hline, hnumber, hstands⟩ := Token.exists_standsOn ht
  obtain ⟨rfl, -⟩ := hstands.of_macroName hk
  have hcut : t.value = ['.', 'R', 'E'] ++ [] := hvalue
  refine ⟨after, ?_⟩
  rw [Diagnostic.ofFault]
  simp only [Fault.token?, hvalue]
  exact hstands.covers hline hnumber hcut (List.cons_ne_nil _ _)

/-- The diagnostics of a source, by its fault: there is none, or it closes too many margin scopes,
or a number is too large. No other faults are those of a source. -/
theorem diagnose_eq_cases (source : Text) :
    let o := interpretSource source none defaultColumns
    let warnings := o.machine.warnings.map Diagnostic.ofWarning
    (o.fault = none ∧ diagnose source = .ok warnings) ∨
    (∃ t ∈ Token.ofSource source, t.kind = .macroName ∧ t.value = ['.', 'R', 'E'] ∧
      o.fault = some (.marginUnderflow t) ∧
      diagnose source = .ok (Diagnostic.ofFault source (.marginUnderflow t) :: warnings)) ∨
    (o.fault = some .numberOverflow ∧ diagnose source = .error .numberOverflow) := by
  simp only [diagnose]
  cases hfault : (interpretSource source none defaultColumns).fault with
  | none => exact Or.inl ⟨rfl, rfl⟩
  | some cause =>
    have hordinary := fault_interpretSource_cases source none defaultColumns cause hfault
    cases cause with
    | marginUnderflow t =>
      exact Or.inr (Or.inl ⟨t, hordinary.1, hordinary.2.1, hordinary.2.2, rfl, rfl⟩)
    | numberOverflow => exact Or.inr (Or.inr ⟨rfl, rfl⟩)
    | alreadyConsumed | missingArgument | strayPart => exact False.elim hordinary

/-- **Diagnostics lie on the text they are about.** Unless a number is too large, a source has
diagnostics: that of its fault, if it has one, and then one for each warning, in the order of their
record. The fault is that of a macro which closes too many margin scopes, and its diagnostic covers
just that macro. The warnings are those that the program of the source asks for as far as the
interpretation comes, and their lines never decrease. The diagnostic of each covers a character: the
point of a macro that begins its line, or the command of an escape, behind its backslash. -/
theorem diagnose_covers (source : Text)
    (hfault : (interpretSource source none defaultColumns).fault ≠ some .numberOverflow) :
    let o := interpretSource source none defaultColumns
    let warnings := o.machine.warnings.map Diagnostic.ofWarning
    (o.fault = none → diagnose source = .ok warnings) ∧
    (∀ cause, o.fault = some cause →
      diagnose source = .ok (Diagnostic.ofFault source cause :: warnings) ∧
      ∃ t ∈ Token.ofSource source, t.kind = .macroName ∧ cause = .marginUnderflow t ∧
        ∃ after, (Diagnostic.ofFault source cause).Covers source [] ['.', 'R', 'E'] after) ∧
    (∃ done, done <+: program false (Token.ofSource source) ∧
      (o.fault = none → done = program false (Token.ofSource source)) ∧
      o.machine.warnings = warningsOf done) ∧
    o.machine.warnings.Pairwise (fun v w => v.line ≤ w.line) ∧
    ∀ w ∈ o.machine.warnings, ∃ before c after,
      (Diagnostic.ofWarning w).Covers source before [c] after ∧
      ∃ t ∈ Token.ofSource source, t.line = w.line ∧ t.column = w.column ∧
        ((t.kind = .macroName ∧ before = [] ∧ c = '.') ∨
          (t.kind = .command ∧ t.value = [c] ∧ before.getLast? = some '\\')) := by
  intro o warnings
  refine ⟨fun hnone => ?_, fun cause hcause => ?_,
    exists_warnings_interpretSource source none defaultColumns,
    pairwise_warnings_interpretSource source defaultColumns, fun w hw => exists_covers_ofWarning hw⟩
  · rcases diagnose_eq_cases source with ⟨-, hdiagnose⟩ | ⟨t, -, -, -, hsome, -⟩ | ⟨hover, -⟩
    · exact hdiagnose
    · exact absurd (hnone.symm.trans hsome) (Option.some_ne_none _).symm
    · exact absurd hover hfault
  · rcases diagnose_eq_cases source with ⟨hnone, -⟩ | ⟨t, ht, hk, hvalue, hsome, heq⟩ | ⟨hover, -⟩
    · exact absurd (hnone.symm.trans hcause) (Option.some_ne_none _).symm
    · -- scopes that are closed too often are the only other fault
      obtain rfl := Option.some.inj (hcause.symm.trans hsome)
      exact ⟨heq, t, ht, hk, rfl, exists_covers_ofFault ht hk hvalue⟩
    · exact absurd hover hfault

/-- A source with three warnings, and a macro that closes a margin scope where none is open. -/
theorem diagnose_covers_of_four_lines :
    let source := ".XY a\n.sp x\n\\zb\n.RE\n".toList
    let o := interpretSource source none defaultColumns
    let t : Token := ⟨.macroName, ['.', 'R', 'E'], true, 4, 1⟩
    o.fault = some (.marginUnderflow t) ∧
      diagnose source = .ok (Diagnostic.ofFault source (.marginUnderflow t) ::
        o.machine.warnings.map Diagnostic.ofWarning) ∧
      (∃ after, (Diagnostic.ofFault source (.marginUnderflow t)).Covers source [] ['.', 'R', 'E']
        after) ∧
      o.machine.warnings.map Warning.line = [1, 2, 3] ∧
      o.machine.warnings.Pairwise fun v w => v.line ≤ w.line := by
  intro source o t
  have hfault : o.fault = some (.marginUnderflow t) := by decide +kernel
  have hordinary : o.fault ≠ some .numberOverflow := by simp [hfault]
  obtain ⟨-, hcause, -, hpairwise, -⟩ := diagnose_covers source hordinary
  obtain ⟨hdiagnose, -, -, -, -, hcovers⟩ := hcause _ hfault
  exact ⟨hfault, hdiagnose, hcovers, by decide +kernel, hpairwise⟩

end Manpage

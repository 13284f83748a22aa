import Manpage.Command.Run
import Manpage.Diagnostic
import Manpage.Proofs.Machine.Faults
import Manpage.Proofs.Program.Amount
import Manpage.Proofs.Render.Lines
import Manpage.Proofs.Render.Scopes

/-!
# Sources that cannot be rendered

A source is rendered, or one of its macros closes more margin scopes than are open, or the amount of
one is a number that no double holds. The last is the only way in which a source aborts a run of the
command, and keeps an editor from showing any diagnostics.

## Main definitions

* `Manpage.Overflows` — a source in which a macro is reached whose amount is too large.

## Main results

* `Manpage.render_or_overflows` — what becomes of a source, in a text, in a run and in an editor.
* `Manpage.not_forall_render_ne_numberOverflow` — there are amounts that are too large.
-/

namespace Manpage

variable {source text : Text} {requested : Option Section} {width : Int}

/-- A macro is reached without a fault whose amount is too large. -/
def Overflows (source : Text) (requested : Option Section) (width : Int) : Prop :=
  ∃ before t after, Token.ofSource source = before ++ t :: after ∧ t.overflows after = true ∧
    ((Machine.fresh (Page.ofWidth width) requested).interpret before).fault = none

/-- A source fails with a number that is too large just where a macro is reached whose amount is.

**Proof sketch.** The fault is found by counting scopes. The count ends in that fault at the line of
a macro with such an amount, and it comes to that line just if the tokens before it are interpreted
without a fault. -/
theorem fault_interpretSource_eq_numberOverflow_iff :
    (interpretSource source requested width).fault = some .numberOverflow ↔
      Overflows source requested width := by
  have hplaced : ∀ t ∈ Token.ofSource source, t.IsPlaced :=
    fun t ht => Token.isPlaced_of_mem_ofSource ht
  have hwhole : Token.ofSource source = Token.ofSource source ++ [] := (List.append_nil _).symm
  have hcount : (interpretSource source requested width).fault = some .numberOverflow ↔
      countScopes 0 (counted requested.isSome (Token.ofSource source)) = .error .numberOverflow :=
    fault_interpret_eq_some_iff hwhole (by simp)
  have hline : ∀ {before t after}, Token.ofSource source = before ++ t :: after →
      t.overflows after = true → ∀ u ∈ (t :: after).head?, u.startsLine = true := by
    intro before t after hsource hoverflows u hu
    obtain rfl : t = u := by simpa using hu
    exact (hplaced t (by simp [hsource])).startsLine_of_macroName
      (Token.kind_of_overflows hoverflows)
  rw [hcount]
  constructor
  · intro h
    obtain ⟨before, t, after, d, hsource, hoverflows, hbefore⟩ :=
      exists_of_countScopes_eq_numberOverflow hplaced h
    exact ⟨before, t, after, hsource, hoverflows,
      (fault_interpret_eq_none_iff hsource (hline hsource hoverflows)).mpr ⟨d, hbefore⟩⟩
  · rintro ⟨before, t, after, hsource, hoverflows, hreached⟩
    obtain ⟨d, hbefore⟩ :=
      (fault_interpret_eq_none_iff hsource (hline hsource hoverflows)).mp hreached
    rw [hsource] at hplaced ⊢
    exact countScopes_of_overflows hplaced hoverflows hbefore

/-- The faults of a source. -/
theorem fault_interpretSource_cases (source : Text) (requested : Option Section) (width : Int) :
    ∀ cause ∈ (interpretSource source requested width).fault,
      cause.IsOrdinary (Token.ofSource source) :=
  Machine.fault_run (program_carries requested.isSome source).sound

/-- A source that does not overflow is rendered, or closes too many margin scopes. These are all the
faults that a source can have. -/
theorem render_of_not_overflows (h : ¬ Overflows source requested width) :
    (∃ text, render source requested width = .ok text) ∨
      ∃ t ∈ Token.ofSource source, t.kind = .macroName ∧ t.value = ['.', 'R', 'E'] ∧
        render source requested width = .error (.marginUnderflow t) := by
  have hcases := fault_interpretSource_cases source requested width
  rw [← fault_interpretSource_eq_numberOverflow_iff] at h
  simp only [render]
  cases hfault : (interpretSource source requested width).fault with
  | none => exact Or.inl ⟨_, rfl⟩
  | some cause =>
    have hordinary := hcases cause hfault
    cases cause with
    | marginUnderflow t => exact Or.inr ⟨t, hordinary.1, hordinary.2.1, hordinary.2.2, rfl⟩
    | numberOverflow => exact absurd hfault h
    | alreadyConsumed | missingArgument | strayPart => exact False.elim hordinary

/-- A run on a source is aborted where a number is too large, and else it has a report. By cases on
the fault: all but that of a number are reported. -/
theorem renderRun_cases (o : Options) (source : Text) (requested : Option Section) (width : Int) :
    ((interpretSource source requested width).fault = some .numberOverflow →
      Command.renderRun o source requested width = .aborted .overflow) ∧
    ((interpretSource source requested width).fault ≠ some .numberOverflow →
      ∃ report, Command.renderRun o source requested width = .done report ∧
        ((report.exitCode = 0 ∧ (render source requested width).isOk = true) ∨
          (report.exitCode = 1 ∧ (render source requested width).isOk = false))) := by
  have hwritten : ∀ stderr text, (Command.written o stderr text).exitCode = 0 := by
    intro stderr text
    unfold Command.written
    split <;> rfl
  simp only [Command.renderRun, render]
  cases hfault : (interpretSource source requested width).fault with
  | none => exact ⟨fun h => absurd h (by simp), fun _ => ⟨_, rfl, Or.inl ⟨hwritten _ _, rfl⟩⟩⟩
  | some cause =>
    cases cause with
    | numberOverflow => exact ⟨fun _ => rfl, fun h => absurd rfl h⟩
    | _ => exact ⟨fun h => absurd h (by simp), fun _ => ⟨_, rfl, Or.inr ⟨rfl, rfl⟩⟩⟩

/-- A run that finds all that it needs is a run on its source. -/
theorem run_eq_renderRun {args : List Text} {env : Environment} {r : Request} {o : Options}
    (hparse : Request.parse args = .ok r) (hresolve : Options.resolve r env.read = .ok o)
    (hsource : Command.sourceOf o env = .ok source)
    (hsection : Command.sectionOf o = .ok requested) (hwidth : Command.widthOf o env = .ok width) :
    Command.run args env = Command.renderRun o source requested width := by
  simp only [Command.run, Command.execute, hparse, hresolve, hsource, hsection, hwidth]

/-- An editor gets diagnostics unless a number is too large. Any other fault is a diagnostic itself.
-/
theorem diagnose_cases (source : Text) :
    ((interpretSource source none defaultColumns).fault = some .numberOverflow →
      diagnose source = .error .numberOverflow) ∧
    ((interpretSource source none defaultColumns).fault ≠ some .numberOverflow →
      ∃ diagnostics, diagnose source = .ok diagnostics) := by
  simp only [diagnose]
  cases hfault : (interpretSource source none defaultColumns).fault with
  | none => exact ⟨fun h => absurd h (by simp), fun _ => ⟨_, rfl⟩⟩
  | some cause =>
    cases cause with
    | numberOverflow => exact ⟨fun _ => rfl, fun h => absurd rfl h⟩
    | _ => exact ⟨fun h => absurd h (by simp), fun _ => ⟨_, rfl⟩⟩

/-- **What becomes of a source.** Unless a macro is reached whose amount no double holds, a source
is rendered, or one of its macros closes more margin scopes than are open; a run of the command on
it, once the configuration, the section and the width are known and the source is read, ends with
the exit code 0 or 1 accordingly; and an editor gets diagnostics. Where such a macro is reached, the
source is not rendered, the run is aborted, and the editor gets none.

**Proof sketch.** The faults of a source are ordinary ones, and that of a number is found by
counting along the lines, each of which contributes what its amount says. -/
theorem render_or_overflows (source : Text) (requested : Option Section) (width : Int) :
    (Overflows source requested width → render source requested width = .error .numberOverflow) ∧
    (¬ Overflows source requested width →
      (∃ text, render source requested width = .ok text) ∨
        ∃ t ∈ Token.ofSource source, t.kind = .macroName ∧ t.value = ['.', 'R', 'E'] ∧
          render source requested width = .error (.marginUnderflow t)) ∧
    (∀ args env r o, Request.parse args = .ok r → Options.resolve r env.read = .ok o →
      Command.sourceOf o env = .ok source → Command.sectionOf o = .ok requested →
      Command.widthOf o env = .ok width →
      (Overflows source requested width → Command.run args env = .aborted .overflow) ∧
      (¬ Overflows source requested width → ∃ report, Command.run args env = .done report ∧
        ((report.exitCode = 0 ∧ (render source requested width).isOk = true) ∨
          (report.exitCode = 1 ∧ (render source requested width).isOk = false)))) ∧
    (Overflows source none defaultColumns → diagnose source = .error .numberOverflow) ∧
    (¬ Overflows source none defaultColumns →
      ∃ diagnostics, diagnose source = .ok diagnostics) := by
  have hiff : ∀ {requested width}, (interpretSource source requested width).fault =
      some .numberOverflow ↔ Overflows source requested width :=
    fault_interpretSource_eq_numberOverflow_iff
  have hdiagnose := diagnose_cases source
  refine ⟨fun h => ?_, render_of_not_overflows, ?_, fun h => hdiagnose.1 (hiff.mpr h),
    fun h => hdiagnose.2 (mt hiff.mp h)⟩
  · exact render_eq_error_iff.mpr (hiff.mpr h)
  · intro args env r o hparse hresolve hsource hsection hwidth
    have hrun := renderRun_cases o source requested width
    rw [run_eq_renderRun hparse hresolve hsource hsection hwidth]
    exact ⟨fun h => hrun.1 (hiff.mpr h), fun h => hrun.2 (mt hiff.mp h)⟩

/-- A request for an indent of 10^309 - 1 columns is no text, a run on it is aborted, and an editor
gets no diagnostics. A source with one letter is rendered by a run. -/
theorem render_or_overflows_of_nines :
    let nines := ".PD ".toList ++ List.replicate 309 '9'
    let env : Text → Environment := fun source => ⟨none, source, fun _ => .error .absent⟩
    (Overflows nines none 72 ∧ render nines none 72 = .error .numberOverflow ∧
      Command.run [['-']] (env nines) = .aborted .overflow) ∧
    (Overflows nines none 80 ∧ diagnose nines = .error .numberOverflow) ∧
    (¬ Overflows ['a'] none 72 ∧ ∃ report, Command.run [['-']] (env ['a']) = .done report ∧
      ((report.exitCode = 0 ∧ (render ['a'] none 72).isOk = true) ∨
        (report.exitCode = 1 ∧ (render ['a'] none 72).isOk = false))) := by
  intro nines env
  have hnines : ∀ width, Overflows nines none width := fun width =>
    ⟨[], ⟨.macroName, ['.', 'P', 'D'], true, 1, 1⟩,
      [⟨.blank, [' '], false, 1, 4⟩, ⟨.word, List.replicate 309 '9', false, 1, 5⟩],
      by decide +kernel, by decide +kernel, rfl⟩
  obtain ⟨hfault, -, hrun, hdiagnose, -⟩ := render_or_overflows nines none 72
  obtain ⟨hletter, -, hrunLetter, -⟩ := render_or_overflows ['a'] none 72
  have hnot : ¬ Overflows ['a'] none 72 := fun h => absurd (hletter h) (by decide +kernel)
  refine ⟨⟨hnines 72, hfault (hnines 72), ?_⟩, ⟨hnines 80, hdiagnose (hnines 80)⟩, hnot, ?_⟩
  · exact (hrun [['-']] (env nines) _ _ rfl rfl (by decide +kernel) rfl rfl).1 (hnines 72)
  · exact (hrunLetter [['-']] (env ['a']) _ _ rfl rfl (by decide) rfl rfl).2 hnot

/-- There are amounts that are too large: not every source is rendered or closes too many margin
scopes. -/
theorem not_forall_render_ne_numberOverflow :
    ¬ ∀ (source : Text) (requested : Option Section) (width : Int),
      (∃ text, render source requested width = .ok text) ∨
        ∃ cause, render source requested width = .error cause ∧ cause ≠ .numberOverflow := by
  intro h
  have hfault : render ("a\n.PD ".toList ++ List.replicate 309 '9') none 40 =
      .error .numberOverflow := by
    decide +kernel
  rcases h ("a\n.PD ".toList ++ List.replicate 309 '9') none 40 with
    ⟨text, hok⟩ | ⟨cause, hne, hcause⟩
  · exact absurd (hfault.symm.trans hok) (by simp)
  · exact hcause (Except.error.inj (hne.symm.trans hfault))

end Manpage

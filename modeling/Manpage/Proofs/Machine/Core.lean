import Manpage.Proofs.Page.Plain
import Manpage.Render

/-!
# What output does not steer

The page takes part in an interpretation in two ways: it collects what is shown, and it keeps the
settings that instructions set and read. Only the second is part of the core of a machine, with the
section that is current, the records and the open scopes. What an instruction does to the core
depends on the core alone, and so does its fault. The lines of the page, its width and the section
that is asked for have no say in it.

## Main definitions

* `Manpage.Machine.Core`, `Manpage.Machine.core` — a machine without what is shown.
* `Manpage.Instr.isOutput` — instructions that do nothing but show something or end lines.

## Main results

* `Manpage.Machine.core_apply`, `Manpage.Machine.fault?_eq` — one instruction.
* `Manpage.Machine.run_core` — a program.
* `Manpage.interpret_eq_of_isSome_eq` — widths and sections do not steer an interpretation.
-/

namespace Manpage

/-- An instruction that shows something or ends lines, and does nothing else. -/
def Instr.isOutput : Instr → Bool
  | .emit _ | .space | .blank _ | .beginLine | .endLine | .emptyLine | .lineBreak | .blankLine
  | .skipLines _ => true
  | _ => false

namespace Machine

/-- A machine without what is shown: the settings of its page, the current section, the records and
the open scopes. -/
structure Core where
  settings : Page.Settings
  current : Option Section
  entries : List TraceEntry
  reports : List Warning
  scopes : List Scope

/-- The core of a machine. -/
def core (m : Machine) : Core :=
  ⟨m.page.settings, m.current, m.entries, m.reports, m.scopes⟩

variable {m n : Machine} {i : Instr} {is : List Instr} {f : Page → Page}

/-! ## The parts of a core -/

/-- Machines with the same core have the same settings on their pages. -/
theorem settings_eq (h : m.core = n.core) : m.page.settings = n.page.settings :=
  congrArg Core.settings h

/-- Machines with the same core have the same scopes open. -/
theorem scopes_eq (h : m.core = n.core) : m.scopes = n.scopes :=
  congrArg Core.scopes h

/-- Machines with the same core have the same margin scopes open. -/
theorem margins_eq (h : m.core = n.core) : m.page.margins = n.page.margins :=
  congrArg Page.Settings.margins (settings_eq h)

/-- Machines with the same core have the same style. -/
theorem style_eq (h : m.core = n.core) : m.page.style = n.page.style :=
  congrArg Page.Settings.style (settings_eq h)

/-- Machines with the same core have the same indent for paragraphs without one of their own. -/
theorem paragraphIndent_eq (h : m.core = n.core) :
    m.page.paragraphIndent = n.page.paragraphIndent := by
  have hstored : m.page.storedIndent = n.page.storedIndent :=
    congrArg Page.Settings.storedIndent (settings_eq h)
  rw [Page.paragraphIndent, Page.paragraphIndent, hstored]

/-! ## Output and settings -/

/-- Output that leaves the settings alone leaves the core alone, visible or not. -/
theorem core_output (m : Machine) (hf : ∀ p, (f p).settings = p.settings) :
    (m.output f).core = m.core := by
  unfold output
  split
  · simp only [core, onPage, hf]
  · rfl

/-- A change of settings that depends on the settings alone. -/
theorem core_onPage {g : Page → Page} (h : m.core = n.core)
    (hfg : m.page.settings = n.page.settings → (f m.page).settings = (g n.page).settings) :
    (m.onPage f).core = (n.onPage g).core := by
  have hsettings := hfg (settings_eq h)
  simp only [core, Core.mk.injEq] at h
  simp only [core, onPage, hsettings, h]

/-- Entering a scope keeps machines at the same core. -/
theorem core_enter {s : Scope} (h : m.core = n.core) : (m.enter s).core = (n.enter s).core := by
  simp only [core, Core.mk.injEq] at h
  simp only [core, enter, h]

/-- Empty lines leave the settings as they are. -/
theorem settings_skipLines (count : Nat) (p : Page) :
    (skipLines count p).settings = p.settings := by
  unfold skipLines
  split
  · rfl
  · exact Page.settings_breakLines p (count + 1)

/-- The end of a scope: the core afterwards depends on the core before. Which scope ends is in the
core, and so are the style and the indent that come back with it. -/
theorem core_closeScope (h : m.core = n.core) : m.closeScope.core = n.closeScope.core := by
  have hscopes := scopes_eq h
  have hsettings := settings_eq h
  simp only [core, Core.mk.injEq] at h
  simp only [Page.settings, Page.Settings.mk.injEq] at hsettings
  unfold closeScope
  rw [hscopes]
  split
  · simp only [core, h]
  · simp only [core, Page.settings_closeWord, h]
  · simp only [core, Page.settings, hsettings, h]
  · rw [core_output _ Page.settings_lineBreak, core_output _ Page.settings_lineBreak]
    simp only [core, indentBy, Page.storeIndent, Page.settings, hsettings, h]

/-! ## Instructions -/

/-- Output leaves the core alone.

**Proof sketch.** By cases on the instruction. Whatever it puts on the page leaves the settings
alone, and where nothing is seen it does nothing. -/
theorem core_apply_of_isOutput (m : Machine) (hi : i.isOutput = true) :
    (m.apply i).core = m.core := by
  cases i with
  | emit text => exact core_output m (Page.settings_append · text)
  | space => exact core_output m Page.settings_appendSpace
  | blank text =>
    refine core_output m fun p => ?_
    split
    · exact Page.settings_append p text
    · exact Page.settings_appendSpace p
  | beginLine =>
    simp only [apply]
    split
    · exact core_output m Page.settings_lineBreak
    · rfl
  | endLine =>
    simp only [apply]
    split
    · rfl
    · exact core_output m Page.settings_appendSpace
  | emptyLine =>
    refine core_output m fun p => ?_
    split
    · exact Page.settings_breakLine p
    · exact Page.settings_blankLine p
  | lineBreak => exact core_output m Page.settings_lineBreak
  | blankLine => exact core_output m Page.settings_blankLine
  | skipLines count => exact core_output m (settings_skipLines count)
  | _ => exact Bool.noConfusion hi

/-- **One instruction.** What it does to the core depends on the core alone.

**Proof sketch.** By cases on the instruction. Output leaves the core alone on both machines. The
others change settings as the settings say, or records as the records say, without asking for the
page. -/
theorem core_apply (h : m.core = n.core) (i : Instr) : (m.apply i).core = (n.apply i).core := by
  cases i with
  | consume | note | warn | enterSection =>
    simp only [core, Core.mk.injEq] at h
    simp only [core, apply, h]
  | fault => exact h
  | emit | space | blank | beginLine | endLine | emptyLine | lineBreak | blankLine | skipLines =>
    rw [core_apply_of_isOutput m rfl, core_apply_of_isOutput n rfl, h]
  | openWord =>
    refine core_enter (core_onPage h fun hsettings => ?_)
    rw [Page.settings_openWord, Page.settings_openWord, hsettings]
  | openStyle font =>
    simp only [apply, style_eq h]
    refine core_enter (core_onPage h fun hsettings => ?_)
    simp only [Page.settings, Page.Settings.mk.injEq] at hsettings
    simp only [Page.setStyle, Page.settings, hsettings]
  | openTag amount =>
    simp only [apply, paragraphIndent_eq h]
    refine core_enter ?_
    rw [core_output _ Page.settings_lineBreak, core_output _ Page.settings_lineBreak]
    refine core_onPage h fun hsettings => ?_
    simp only [Page.settings, Page.Settings.mk.injEq] at hsettings
    simp only [Page.settings, hsettings]
  | closeScope => exact core_closeScope h
  | paragraphIndent amount =>
    have hindent := paragraphIndent_eq h
    refine core_onPage h fun hsettings => ?_
    simp only [Page.settings, Page.Settings.mk.injEq] at hsettings
    simp only [indentBy, Page.storeIndent, Page.settings, hindent, hsettings]
  | openMargin amount =>
    have hindent := paragraphIndent_eq h
    refine core_onPage h fun hsettings => ?_
    simp only [Page.settings, Page.Settings.mk.injEq] at hsettings
    simp only [Page.pushMargin, Page.settings, hindent, hsettings]
  | setStyle | plainStyle | setNoFill | setIndent | forgetIndent | closeMargins | clearMargins
  | sectionMargin =>
    refine core_onPage h fun hsettings => ?_
    simp only [Page.settings, Page.Settings.mk.injEq] at hsettings
    simp only [Page.setStyle, Page.clearMargins, Page.sectionMargin, Page.pushMargin, Page.settings,
      hsettings]

/-- The fault of an instruction depends on the core alone. -/
theorem fault?_eq (h : m.core = n.core) (i : Instr) : m.fault? i = n.fault? i := by
  cases i with
  | closeMargins => simp only [fault?, margins_eq h]
  | _ => rfl

/-! ## The end of an interpretation -/

/-- A scope that is left depends on the core alone. Of a page it changes the style, or completes a
word, which touches no setting. -/
theorem core_abandon (h : m.core = n.core) (s : Scope) :
    (m.abandon s).core = (n.abandon s).core := by
  cases s with
  | word =>
    refine core_onPage h fun hsettings => ?_
    rw [Page.settings_closeWord, Page.settings_closeWord, hsettings]
  | style saved =>
    refine core_onPage h fun hsettings => ?_
    simp only [Page.settings, Page.Settings.mk.injEq] at hsettings
    simp only [Page.settings, hsettings]
  | tag => exact h

/-- Leaving all scopes keeps machines at the same core. -/
theorem core_unwind (h : m.core = n.core) : m.unwind.core = n.unwind.core := by
  unfold unwind
  rw [scopes_eq h]
  refine List.foldl_rel (r := fun m n : Machine => m.core = n.core) ?_
    fun s _ _ _ hcore => core_abandon hcore s
  simp only [core, Core.mk.injEq] at h
  simp only [core, h]

/-- **A program.** Whether and how it fails, and the core at its end, depend on the core at its
beginning alone. -/
theorem run_core (h : m.core = n.core) (is : List Instr) :
    (m.run is).fault = (n.run is).fault ∧ (m.run is).machine.core = (n.run is).machine.core := by
  induction is generalizing m n with
  | nil => exact ⟨rfl, h⟩
  | cons i is ih =>
    simp only [run, fault?_eq h i]
    split
    · exact ⟨rfl, core_unwind (core_apply h i)⟩
    · exact ih (core_apply h i)

end Machine

/-! ## Widths and sections -/

/-- **Widths and sections do not steer an interpretation.** Two interpretations of any tokens, for
any two widths, that both ask for a section or both ask for none, have the same fault or none, and
end with the same trace, warnings, section, style, indents and margins.

**Proof sketch.** The program of the tokens depends on nothing but whether a section is asked for,
so both machines carry out the same program, and they begin with the same core. -/
theorem interpret_eq_of_isSome_eq (tokens : List Token) (width width' : Int)
    {requested requested' : Option Section} (h : requested.isSome = requested'.isSome) :
    let o := (Machine.fresh (Page.ofWidth width) requested).interpret tokens
    let o' := (Machine.fresh (Page.ofWidth width') requested').interpret tokens
    o.fault = o'.fault ∧ o.machine.trace = o'.machine.trace ∧
      o.machine.warnings = o'.machine.warnings ∧ o.machine.current = o'.machine.current ∧
      o.machine.page.style = o'.machine.page.style ∧
      o.machine.page.noFill = o'.machine.page.noFill ∧
      o.machine.page.indent = o'.machine.page.indent ∧
      o.machine.page.storedIndent = o'.machine.page.storedIndent ∧
      o.machine.page.margins = o'.machine.page.margins := by
  intro o o'
  have hcore : o.fault = o'.fault ∧ o.machine.core = o'.machine.core := by
    let m : Machine := { Machine.fresh (Page.ofWidth width) requested with consumed := true }
    let m' : Machine := { Machine.fresh (Page.ofWidth width') requested' with consumed := true }
    have hrun : o = m.run (program requested.isSome tokens) := rfl
    have hrun' : o' = m'.run (program requested.isSome tokens) := by
      rw [h]
      rfl
    have hstart : m.core = m'.core := rfl
    rw [hrun, hrun']
    exact Machine.run_core hstart _
  obtain ⟨hfault, hcore⟩ := hcore
  simp only [Machine.core, Page.settings, Machine.Core.mk.injEq, Page.Settings.mk.injEq] at hcore
  obtain ⟨⟨hstyle, hfill, hindent, hstored, hmargins⟩, hcurrent, hentries, hreports, -⟩ := hcore
  refine ⟨hfault, ?_, ?_, hcurrent, hstyle, hfill, hindent, hstored, hmargins⟩
  · rw [Machine.trace, Machine.trace, hentries]
  · rw [Machine.warnings, Machine.warnings, hreports]

/-- A heading, a word and a part of an escape that stands outside of any: on narrow lines with its
section shown, and on wide lines with another, the interpretation fails at the same token. -/
theorem interpret_eq_of_strayPart :
    let stray : Token := ⟨.argument, ['B'], true, 3, 1⟩
    let tokens : List Token :=
      [⟨.macroName, ['.', 'S', 'H'], true, 1, 1⟩, ⟨.word, ['N', 'A', 'M', 'E'], false, 1, 5⟩,
        ⟨.word, ['a', 'b'], true, 2, 1⟩, stray]
    let o := (Machine.fresh (Page.ofWidth 1) (some .name)).interpret tokens
    let o' := (Machine.fresh (Page.ofWidth 80) (some .options)).interpret tokens
    ((some Section.name).isSome = (some Section.options).isSome ∧
      o.fault = some (.strayPart stray) ∧ o.machine.page.text ≠ o'.machine.page.text) ∧
      o.fault = o'.fault ∧ o.machine.trace = o'.machine.trace ∧
      o.machine.warnings = o'.machine.warnings ∧ o.machine.current = o'.machine.current ∧
      o.machine.page.style = o'.machine.page.style ∧
      o.machine.page.noFill = o'.machine.page.noFill ∧
      o.machine.page.indent = o'.machine.page.indent ∧
      o.machine.page.storedIndent = o'.machine.page.storedIndent ∧
      o.machine.page.margins = o'.machine.page.margins :=
  ⟨⟨rfl, by decide, by decide⟩, interpret_eq_of_isSome_eq _ 1 80 rfl⟩

end Manpage

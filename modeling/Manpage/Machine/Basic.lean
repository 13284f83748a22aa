import Manpage.Page.Fill
import Manpage.Program.Basic
import Manpage.Token.Dump

/-!
# Carrying out programs

A machine carries out a program on a page. It keeps the section that is current, the trace of
consumed tokens, the warnings, and the scopes that are open. Where a section is asked for, only
what is shown while it is current reaches the page; styles, indents and margins change regardless.

A machine stops at the first fault. It then leaves all scopes, so that words are complete and
styles are what they were.

## Main definitions

* `Manpage.Machine` — a machine, with `Manpage.Machine.fresh`.
* `Manpage.Machine.exec` — one instruction carried out.
* `Manpage.Machine.run` — a program carried out.
* `Manpage.Machine.interpret` — the tokens of a source interpreted.
-/

namespace Manpage

/-- An entry of the trace: a token, or a note on a macro without effect. -/
inductive TraceEntry where
  | token (t : Token)
  | skippedMacro (t : Token)
deriving DecidableEq

/-- An entry as it is written. -/
def TraceEntry.text : TraceEntry → Text
  | token t => t.traceEntry
  | skippedMacro t => "[skipping unknown macro: ".toList ++ t.value.quoted ++ [']', ' ']

/-- A scope that is open. -/
inductive Scope where
  /-- a word -/
  | word
  /-- a style, with the one to return to -/
  | style (saved : Style)
  /-- a tag, with the indent of its paragraph -/
  | tag (amount : Int)
deriving DecidableEq

/-- A machine. The lists of entries, warnings and scopes hold the latest element first. -/
structure Machine where
  page : Page
  /-- the section that is asked for; without one, everything is shown -/
  requested : Option Section
  /-- the section that is current -/
  current : Option Section
  entries : List TraceEntry
  reports : List Warning
  scopes : List Scope
  /-- tokens were given already -/
  consumed : Bool
deriving DecidableEq

/-- A machine at the end of its work, and the fault that stopped it, if one did. -/
structure Outcome where
  machine : Machine
  fault : Option Fault
deriving DecidableEq

namespace Machine

/-- A machine that has done nothing yet. -/
def fresh (page : Page) (requested : Option Section) : Machine where
  page := page
  requested := requested
  current := none
  entries := []
  reports := []
  scopes := []
  consumed := false

/-! ## Views -/

/-- The warnings in the order of their record. -/
def warnings (m : Machine) : List Warning :=
  m.reports.reverse

/-- The trace of consumed tokens, one source line on a line. -/
def trace (m : Machine) : Text :=
  Text.strip (m.entries.reverse.flatMap TraceEntry.text)

/-- What is shown now reaches the page. -/
def isVisible (m : Machine) : Bool :=
  m.requested.isNone || m.requested == m.current

/-! ## Instructions -/

/-- Changes the page. -/
def onPage (m : Machine) (f : Page → Page) : Machine :=
  { m with page := f m.page }

/-- Changes the page where output is visible. -/
def output (m : Machine) (f : Page → Page) : Machine :=
  if m.isVisible then m.onPage f else m

/-- Opens a scope. -/
def enter (m : Machine) (s : Scope) : Machine :=
  { m with scopes := s :: m.scopes }

/-- The page with an indent that is also stored. -/
def indentBy (amount : Int) (p : Page) : Page :=
  Page.storeIndent { p with indent := amount }

/-- Closes the innermost scope. A word is complete, the style before returns, or the paragraph of a
tag begins. -/
def closeScope (m : Machine) : Machine :=
  match m.scopes with
  | [] => m
  | .word :: outer => { m with scopes := outer, page := m.page.closeWord }
  | .style saved :: outer => { m with scopes := outer, page := { m.page with style := saved } }
  | .tag amount :: outer =>
    ({ m with scopes := outer, page := indentBy amount m.page } : Machine).output Page.lineBreak

/-- Leaves a scope on the way out of an interpretation that a fault has stopped. -/
def abandon (m : Machine) : Scope → Machine
  | .word => m.onPage Page.closeWord
  | .style saved => m.onPage fun p => { p with style := saved }
  | .tag _ => m

/-- Leaves all scopes, the innermost first. -/
def unwind (m : Machine) : Machine :=
  m.scopes.foldl abandon { m with scopes := [] }

/-- The page after a request for empty lines: one that is not blank ends the line first. -/
def skipLines (count : Nat) (p : Page) : Page :=
  if p.isLineBlank then p else p.breakLines (count + 1)

/-- One instruction carried out, without the ways in which it can fail. -/
def apply (m : Machine) : Instr → Machine
  | .consume t => { m with entries := .token t :: m.entries }
  | .note t => { m with entries := .skippedMacro t :: m.entries }
  | .warn anomaly t => { m with reports := Warning.about anomaly t :: m.reports }
  | .emit text => m.output (·.append text)
  | .space => m.output Page.appendSpace
  | .blank text =>
    m.output fun p => if m.page.noFill then p.append text else p.appendSpace
  | .beginLine => if m.page.noFill then m.output Page.lineBreak else m
  | .endLine => if m.page.noFill then m else m.output Page.appendSpace
  | .emptyLine => m.output fun p => if m.page.noFill then p.breakLine else p.blankLine
  | .lineBreak => m.output Page.lineBreak
  | .blankLine => m.output Page.blankLine
  | .skipLines count => m.output (skipLines count)
  | .openWord => (m.onPage Page.openWord).enter .word
  | .openStyle font => (m.onPage (·.setStyle font true)).enter (.style m.page.style)
  | .openTag amount =>
    ((m.onPage fun p => { p with indent := 0 }).output Page.lineBreak).enter
      (.tag (amount.getD m.page.paragraphIndent))
  | .closeScope => m.closeScope
  | .setStyle font value => m.onPage (·.setStyle font value)
  | .plainStyle => m.onPage fun p => { p with style := .plain }
  | .setNoFill value => m.onPage fun p => { p with noFill := value }
  | .setIndent amount => m.onPage fun p => { p with indent := amount }
  | .paragraphIndent amount => m.onPage fun p => indentBy (amount.getD p.paragraphIndent) p
  | .forgetIndent => m.onPage fun p => { p with storedIndent := none }
  | .openMargin amount => m.onPage fun p => p.pushMargin (amount.getD p.paragraphIndent)
  | .closeMargins count _ => m.onPage fun p => { p with margins := p.margins.drop count }
  | .clearMargins => m.onPage Page.clearMargins
  | .sectionMargin => m.onPage Page.sectionMargin
  | .enterSection s => { m with current := some s }
  | .fault _ => m

/-- The fault of an instruction, if it has one. -/
def fault? (m : Machine) : Instr → Option Fault
  | .closeMargins count t =>
    if m.page.margins.length < count then some (.marginUnderflow t) else none
  | .fault cause => some cause
  | _ => none

/-- A program carried out, up to the first fault. -/
def run (m : Machine) : List Instr → Outcome
  | [] => ⟨m, none⟩
  | i :: more =>
    match m.fault? i with
    | some cause => ⟨(m.apply i).unwind, some cause⟩
    | none => (m.apply i).run more

/-- The tokens of a source interpreted. A machine takes tokens only once. -/
def interpret (m : Machine) (tokens : List Token) : Outcome :=
  if m.consumed then ⟨m, some .alreadyConsumed⟩
  else run { m with consumed := true } (program m.requested.isSome tokens)

end Machine

end Manpage

import Manpage.Proofs.Machine.Plain
import Manpage.Proofs.Page.Steady
import Manpage.Proofs.Program.Reading
import Manpage.Proofs.Token.Value
import Manpage.Render

/-!
# What stays true of a page while a source is interpreted

A property that the changes of a page keep holds after every instruction of a source, and so of the
page that is rendered.

## Main definitions

* `Manpage.Machine.Holds` — a machine in a phase, with a property of its page.

## Main results

* `Manpage.Machine.Holds.apply` — one instruction.
* `Manpage.Machine.Holds.exec`, `Manpage.Machine.Holds.run` — a program.
* `Manpage.Steady.interpretSource` — a source that is interpreted to its end.
-/

namespace Manpage

variable {source t : Text} {P : WordPhase → Page → Prop} {p : Page} {m : Machine} {i : Instr}
  {is : List Instr} {φ ψ : WordPhase}

/-! ## The texts of a source -/

/-- A text that is shown is ink of the source or of an escape. It is the value of a token, and those
are stretches of the source, or one of three that stand for an escape. -/
theorem IsShown.isInkOf (h : IsShown (Token.ofSource source) t) : t.IsInkOf source := by
  rcases h with ⟨token, htoken, hk, rfl⟩ | h
  · have hcut := Token.isCut_of_mem_ofSource htoken
    obtain ⟨hne, hink⟩ := hcut.isInk hk
    exact ⟨hne, hink, fun c hc => Or.inl (hcut.mem c hc)⟩
  · simp only [List.mem_cons, List.not_mem_nil, or_false] at h
    rcases h with rfl | rfl | rfl
    · exact ⟨by decide, by decide, by simp⟩
    · exact ⟨by decide, by decide, by simp⟩
    · exact ⟨by decide, by decide, by simp⟩

/-- The blanks between the tokens of a source are blank texts of the source. -/
theorem Text.isBlankOf_of_mem {token : Token} (h : token ∈ Token.ofSource source)
    (hk : token.kind = .blank) : token.value.IsBlankOf source := by
  have hcut := Token.isCut_of_mem_ofSource h
  obtain ⟨hne, hblank, hfeed⟩ := hcut.isBlank hk
  exact ⟨hne, hblank, hfeed, fun c hc => Or.inl (hcut.mem c hc)⟩

/-! ## Instructions -/

/-- Between words, empty lines keep what is kept, however many they are. -/
theorem Page.Idle.skipLines (hP : Steady source P) (h : p.Idle P) (n : Nat) :
    (Machine.skipLines n p).Idle P := by
  unfold Machine.skipLines
  split
  · exact h
  · exact h.breakLines hP (n + 1)

namespace Machine

/-- A machine in a phase, with a property of its page. There is a scope of a word just where a word
is open, and it is the innermost. -/
def Holds (P : WordPhase → Page → Prop) (φ : WordPhase) (m : Machine) : Prop :=
  match φ with
  | .outside => m.page.Idle P ∧ Scope.word ∉ m.scopes
  | φ => m.page.Busy P φ ∧ ∃ outer, m.scopes = .word :: outer ∧ Scope.word ∉ outer

/-- Output outside of words, visible or not. -/
theorem Holds.output {f : Page → Page} (h : m.Holds P .outside)
    (hf : m.page.Idle P → (f m.page).Idle P) : (m.output f).Holds P .outside := by
  unfold Machine.output
  split
  · exact ⟨hf h.1, h.2⟩
  · exact h

/-- A change of style, indent or margins outside of words. -/
theorem Holds.onPage {f : Page → Page} (hP : Steady source P) (h : m.Holds P .outside)
    (hf : m.page.SameLines (f m.page)) (hblocks : (f m.page).blocks = m.page.blocks) :
    (m.onPage f).Holds P .outside :=
  ⟨h.1.sameLines hP hf hblocks, h.2⟩

/-- A scope other than a word that is opened outside of words. -/
theorem Holds.enter {s : Scope} (h : m.Holds P .outside) (hs : s ≠ .word) :
    (m.enter s).Holds P .outside := by
  refine ⟨h.1, ?_⟩
  intro hmem
  rcases List.mem_cons.mp hmem with rfl | hmem
  · exact hs rfl
  · exact h.2 hmem

/-- The innermost scope that is closed outside of words is a style or a tag. A style changes
settings only, and the end of a tag is a break besides. -/
theorem Holds.closeScope (hP : Steady source P) (h : m.Holds P .outside) :
    m.closeScope.Holds P .outside := by
  obtain ⟨hidle, hscopes⟩ := h
  unfold Machine.closeScope
  split
  · exact ⟨hidle, hscopes⟩
  · rename_i outer heq
    rw [heq] at hscopes
    exact absurd List.mem_cons_self hscopes
  · rename_i saved outer heq
    rw [heq] at hscopes
    refine ⟨hidle.sameLines (p := m.page) hP ⟨rfl, rfl, rfl, rfl, rfl⟩ rfl, ?_⟩
    exact fun hmem => hscopes (List.mem_cons_of_mem _ hmem)
  · rename_i amount outer heq
    rw [heq] at hscopes
    have hindent : Holds P .outside
        { m with scopes := outer, page := indentBy amount m.page } := by
      refine ⟨hidle.sameLines (p := m.page) hP ⟨rfl, rfl, rfl, rfl, rfl⟩ rfl, ?_⟩
      exact fun hmem => hscopes (List.mem_cons_of_mem _ hmem)
    exact hindent.output fun hp => hp.lineBreak hP

/-- One instruction outside of words that opens none.

**Proof sketch.** What is shown goes through the operations of a page outside of words, or is not
visible. All other instructions leave the lines alone. -/
theorem Holds.apply_outside (hP : Steady source P) (hi : i.IsSound (Token.ofSource source))
    (hne : i ≠ .openWord) (h : m.Holds P .outside) : (m.apply i).Holds P .outside := by
  cases i with
  | consume | note | warn | enterSection | fault => exact h
  | openWord => exact absurd rfl hne
  | emit text => exact h.output fun hp => hp.append hP (Or.inl (IsShown.isInkOf hi))
  | space => exact h.output fun hp => hp.appendSpace hP
  | blank text =>
    obtain ⟨token, htoken, hk, rfl⟩ := hi
    refine h.output fun hp => ?_
    split
    · exact hp.append hP (Or.inr (Text.isBlankOf_of_mem htoken hk))
    · exact hp.appendSpace hP
  | beginLine =>
    simp only [Machine.apply]
    split
    · exact h.output fun hp => hp.lineBreak hP
    · exact h
  | endLine =>
    simp only [Machine.apply]
    split
    · exact h
    · exact h.output fun hp => hp.appendSpace hP
  | emptyLine =>
    refine h.output fun hp => ?_
    split
    · exact hp.breakLine hP
    · exact hp.blankLine hP
  | lineBreak => exact h.output fun hp => hp.lineBreak hP
  | blankLine => exact h.output fun hp => hp.blankLine hP
  | skipLines count => exact h.output fun hp => hp.skipLines hP count
  | openStyle font =>
    exact (h.onPage hP (f := (·.setStyle font true)) ⟨rfl, rfl, rfl, rfl, rfl⟩ rfl).enter (by simp)
  | openTag amount =>
    have hindent := h.onPage hP (f := fun p => { p with indent := 0 })
      ⟨rfl, rfl, rfl, rfl, rfl⟩ rfl
    exact (hindent.output fun hp => hp.lineBreak hP).enter (by simp)
  | closeScope => exact h.closeScope hP
  | setStyle | plainStyle | setNoFill | setIndent | paragraphIndent | forgetIndent | openMargin
  | closeMargins | clearMargins | sectionMargin =>
    exact h.onPage hP ⟨rfl, rfl, rfl, rfl, rfl⟩ rfl

/-- The machine that opens a word. -/
theorem Holds.openWord (hP : Steady source P) (h : m.Holds P .outside) :
    (m.apply .openWord).Holds P .inside :=
  ⟨Page.Busy.openWord hP h.1, m.scopes, rfl, h.2⟩

/-- In a word, the page is busy with it, and its scope is the innermost one. -/
theorem Holds.busy (hφ : φ ≠ .outside) (h : m.Holds P φ) :
    m.page.Busy P φ ∧ ∃ outer, m.scopes = .word :: outer ∧ Scope.word ∉ outer := by
  cases φ with
  | outside => exact absurd rfl hφ
  | inside | spaced => exact h

/-- A machine holds a property in a word if its page does, and the scope of the word is the
innermost one. -/
theorem Holds.of_busy (hφ : φ ≠ .outside) (h : m.page.Busy P φ)
    (hscopes : ∃ outer, m.scopes = .word :: outer ∧ Scope.word ∉ outer) : m.Holds P φ := by
  cases φ with
  | outside => exact absurd rfl hφ
  | inside | spaced => exact ⟨h, hscopes⟩

/-- One instruction in a word keeps what is kept, and leads to the phase of the word that comes
next.

**Proof sketch.** By cases on the instruction and the phase. Few are allowed in a word: records,
fonts, texts, a space, after which nothing more may be shown, and the end of the word. -/
theorem Holds.apply_busy (hP : Steady source P) (hi : i.IsSound (Token.ofSource source))
    (hφ : φ ≠ .outside) (hnext : φ.next i = some ψ) (h : m.Holds P φ) :
    (m.apply i).Holds P ψ := by
  obtain ⟨hbusy, hscopes⟩ := h.busy hφ
  cases i with
  | consume | note | warn =>
    obtain rfl : φ = ψ := by
      cases φ <;> simpa [WordPhase.next] using hnext
    exact Holds.of_busy hφ hbusy hscopes
  | setStyle | plainStyle =>
    obtain rfl : φ = ψ := by
      cases φ <;> simpa [WordPhase.next] using hnext
    exact Holds.of_busy hφ
      (hbusy.sameLines (p := m.page) hP ⟨rfl, rfl, rfl, rfl, rfl⟩ rfl) hscopes
  | emit text =>
    cases φ with
    | outside => exact absurd rfl hφ
    -- no text is shown between the space of a font escape and the end of the word
    | spaced => exact absurd hnext (by simp [WordPhase.next])
    | inside =>
      obtain rfl : WordPhase.inside = ψ := by simpa [WordPhase.next] using hnext
      simp only [Machine.apply, Machine.output]
      split
      · exact ⟨hbusy.append hP (IsShown.isInkOf hi), hscopes⟩
      · exact ⟨hbusy, hscopes⟩
  | space =>
    obtain rfl : WordPhase.spaced = ψ := by
      cases φ with
      | outside => exact absurd rfl hφ
      | inside | spaced => simpa [WordPhase.next] using hnext
    -- a page that shows nothing is as good as one with the space in its word
    simp only [Machine.apply, Machine.output]
    split
    · exact ⟨hbusy.appendSpace hP hφ, hscopes⟩
    · exact ⟨hbusy.spaced hP hφ, hscopes⟩
  | closeScope =>
    obtain rfl : WordPhase.outside = ψ := by
      cases φ with
      | outside => exact absurd rfl hφ
      | inside | spaced => simpa [WordPhase.next] using hnext
    -- the innermost scope is that of the word
    obtain ⟨outer, heq, houter⟩ := hscopes
    simp only [Machine.apply, Machine.closeScope, heq]
    exact ⟨hbusy.closeWord hP hφ, houter⟩
  | _ =>
    cases φ with
    | outside => exact absurd rfl hφ
    | inside | spaced => exact absurd hnext (by simp [WordPhase.next])

/-- **One instruction.** A sound instruction that may come in a phase keeps the property. By cases
on the phase: only the opening of a word leads from outside of words into one. -/
theorem Holds.apply (hP : Steady source P) (hi : i.IsSound (Token.ofSource source))
    (hnext : φ.next i = some ψ) (h : m.Holds P φ) : (m.apply i).Holds P ψ := by
  by_cases hφ : φ = .outside
  · subst hφ
    by_cases hopen : i = .openWord
    · subst hopen
      obtain rfl : WordPhase.inside = ψ := by simpa [WordPhase.next] using hnext
      exact h.openWord hP
    · obtain rfl : WordPhase.outside = ψ := by
        simpa [WordPhase.next_outside hopen] using hnext
      exact h.apply_outside hP hi hopen
  · exact h.apply_busy hP hi hφ hnext

/-- **A program.** Sound instructions that may come one after another keep the property. By
induction on the program, through the phases that it goes through. -/
theorem Holds.exec (hP : Steady source P) (his : Carries (Token.ofSource source) φ is ψ)
    (h : m.Holds P φ) : (m.exec is).Holds P ψ := by
  induction is generalizing m φ with
  | nil =>
    obtain rfl : φ = ψ := by simpa using his.after_eq
    exact h
  | cons i is ih =>
    have hafter := his.after_eq
    simp only [WordPhase.after, Option.bind_eq_some_iff] at hafter
    obtain ⟨χ, hnext, hafter⟩ := hafter
    have his' : Carries (Token.ofSource source) χ is ψ :=
      ⟨hafter, fun j hj => his.sound j (List.mem_cons_of_mem i hj)⟩
    exact ih his' (h.apply hP (his.sound i List.mem_cons_self) hnext)

/-- The same for a program that is carried out without a fault. -/
theorem Holds.run (hP : Steady source P) (his : Carries (Token.ofSource source) φ is ψ)
    (hfault : (m.run is).fault = none) (h : m.Holds P φ) : (m.run is).machine.Holds P ψ := by
  rw [run_eq_exec_of_fault_eq_none hfault]
  exact h.exec hP his

end Machine

/-- **Sources.** A property that the changes of a page keep, and that is true of the empty page, is
true of the page of any source that is interpreted to its end. -/
theorem Steady.interpretSource (hP : Steady source P) {requested : Option Section} {width : Int}
    (hempty : P .outside (Page.ofWidth width))
    (hfault : (interpretSource source requested width).fault = none) :
    (Manpage.interpretSource source requested width).machine.page.Idle P := by
  have hfresh : Machine.Holds P .outside
      { Machine.fresh (Page.ofWidth width) requested with consumed := true } :=
    ⟨⟨rfl, rfl, hempty⟩, List.not_mem_nil⟩
  exact (hfresh.run hP (program_carries requested.isSome source) hfault).1

end Manpage

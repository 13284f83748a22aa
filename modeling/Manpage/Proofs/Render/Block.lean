import Manpage.Proofs.Machine.Margins
import Manpage.Proofs.Machine.Shown
import Manpage.Proofs.Program.Block
import Manpage.Proofs.Render.Scopes

/-!
# Blocks with a margin of their own

A macro that opens a margin scope and one that closes it make a block of the lines between them.
Where these lines close no more scopes than they open, and leave none open, the block has no effect
on margins: within it the margins from before stand below the margin of the block, and behind it
they are what they were. That holds wherever macros in the block open and close scopes, also as the
tags of paragraphs.

## Main results

* `Manpage.countScopes_program_eq_ok` — lines that close no more scopes than they open.
* `Manpage.margins_block` — the margins within a block and behind it.
-/

namespace Manpage

variable {source : Text} {before line body ending after ts : List Token} {t u : Token}
  {isolating : Bool} {d k : Nat} {is opening : List Instr} {m : Machine} {p : Purpose}

/-! ## The lines of a block -/

/-- An instruction that resets the margins is of a macro: it is neither one that text leaves nor one
that the arguments of macros do, so that only the macros have to be gone through. -/
theorem isSortOfMacros_resetsMargins : IsSortOfMacros Instr.resetsMargins := by
  intro i hi
  cases i with
  | clearMargins | sectionMargin => exact hi.elim Bool.noConfusion Bool.noConfusion
  | _ => rfl

/-- The arguments of macros reset no margins. -/
theorem Purpose.settle_resetsNoMargins (p : Purpose) (t : Token) (argument : Option Text) :
    NoneOf Instr.resetsMargins ((p.settle t argument).1 ++ (p.settle t argument).2) := by
  refine (p.settle_fst_noneOf isSortOfMacros_resetsMargins t argument).append ?_
  cases p <;> simp [settle, Instr.resetsMargins]

/-- Only a heading resets margins, and only in a whole document. By cases on the macro, and none of
the frames that are left stores a reset. -/
theorem Step.call_resetsNoMargins (hk : t.kind = .macroName)
    (h : isolating = false → t.called? ≠ some .heading) :
    (call isolating t).Lacks Instr.resetsMargins := by
  rw [Token.called?_of_kind hk] at h
  unfold call
  split
  case h_2 hname =>
    cases isolating with
    | true =>
      exact ⟨by simp [Instr.resetsMargins],
        by simp [Frame.IsFreeOf, Purpose.settle_resetsNoMargins]⟩
    | false => exact absurd hname (h rfl)
  all_goals
    exact ⟨by simp [Instr.resetsMargins],
      by simp [Frame.IsFreeOf, Instr.resetsMargins, Purpose.settle_resetsNoMargins]⟩

/-- The program of lines without a heading resets no margins; where one section is isolated, no
program does, since a heading opens no margin there. -/
theorem resetsNoMargins_program (h : isolating = false → ∀ t ∈ ts, t.called? ≠ some .heading) :
    ∀ i ∈ program isolating ts, i.resetsMargins = false :=
  noneOf_program isSortOfMacros_resetsMargins (fun _ => rfl) fun t ht hk =>
    Step.call_resetsNoMargins hk fun hi => h hi t ht

/-- **Lines that close no more scopes than they open.** Where their program fails on no number of
scopes, it does not fail on none either, and leaves as many open as the macros say.

**Proof sketch.** On a larger number of scopes the program does not fail, so that on none it can
only fail by closing too many. The macro that does so closes more than were opened before it, and
the condition says that there is none. What is left open follows from the count line by line. -/
theorem countScopes_program_eq_ok (hts : ∀ v ∈ ts, v.IsPlaced)
    (hfaults : ∀ cause, Instr.fault cause ∈ program isolating ts → cause = .numberOverflow)
    (hheading : isolating = false → ∀ t ∈ ts, t.called? ≠ some .heading)
    (hwithin : ∀ first v rest k, ts = first ++ v :: rest → v.called? = some .closeMargin →
      closeCount? rest = some k → k ≤ openScopes isolating 0 first)
    {e : Nat} (hrun : countScopes k (program isolating ts) = .ok e) :
    countScopes 0 (program isolating ts) = .ok (openScopes isolating 0 ts) := by
  have hcounted : ∀ d,
      countScopes d (counted isolating ts) = countScopes d (program isolating ts) :=
    countScopes_counted hfaults
  have hok : ∃ c, countScopes 0 (program isolating ts) = .ok c := by
    refine exists_countScopes_eq_ok (k := k) (resetsNoMargins_program hheading)
      (by simpa using hrun) fun t herror => ?_
    rw [← hcounted] at herror
    obtain ⟨first, rest, c, n, rfl, hcalled, hfirst, hn, hlt⟩ :=
      exists_of_countScopes_eq_error hts herror
    have hopen := openScopes_le_of_countScopes (o := 0) (k := 0)
      (fun v hv => hts v (List.mem_append_left _ hv)) hfirst le_rfl le_rfl
    exact absurd (hwithin first t rest n rfl hcalled hn) (by omega)
  obtain ⟨c, hc⟩ := hok
  have hsection : hasSectionMargin isolating ts = false := by
    cases isolating with
    | true => rfl
    | false => simpa [hasSectionMargin] using hheading rfl
  have hopen := openScopes_le_of_countScopes (o := 0) (k := 0) hts ((hcounted 0).trans hc)
    le_rfl le_rfl
  rw [hsection] at hopen
  obtain rfl : openScopes isolating 0 ts = c := Nat.le_antisymm hopen.1 hopen.2
  exact hc

/-! ## The macros around a block -/

/-- A macro that opens a margin scope wants an amount, for that purpose. -/
theorem Token.wants_openMargin (isolating : Bool) (ht : t.called? = some .openMargin) :
    t.Wants isolating .openMargin := by
  rw [Token.called?_of_kind (Token.kind_of_called? ht)] at ht
  simp only [Token.Wants, Step.call, ht]

/-- A macro that closes margin scopes wants an amount, for that purpose. -/
theorem Token.wants_closeMargin (isolating : Bool) (ht : t.called? = some .closeMargin) :
    t.Wants isolating .closeMargin := by
  rw [Token.called?_of_kind (Token.kind_of_called? ht)] at ht
  simp only [Token.Wants, Step.call, ht]

/-- What comes before the end of the line of a macro that wants an amount changes no setting. It is
the beginning of the line, records, and what is read of the amount, a warning at most. -/
theorem Machine.settings_exec_opening {argument : Option Text} (m : Machine)
    (h : ∀ i ∈ opening, i = .beginLine ∨ i.isRecord = true ∨ i ∈ (readAmount t argument).1) :
    (m.exec opening).page.settings = m.page.settings := by
  induction opening generalizing m with
  | nil => rfl
  | cons i opening ih =>
    obtain ⟨hi, hopening⟩ := List.forall_mem_cons.mp h
    refine (ih (m.apply i) hopening).trans ?_
    rcases hi with rfl | hi | hi
    · exact settings_eq (core_apply_of_isOutput m rfl)
    · cases i with
      | consume | note | warn => rfl
      | _ => exact Bool.noConfusion hi
    · -- an amount that is read leaves a warning, a fault or nothing
      have hamount : (readAmount t argument).1 = [] ∨
          (∃ anomaly, (readAmount t argument).1 = [.warn anomaly t]) ∨
          (readAmount t argument).1 = [.fault .numberOverflow] := by
        cases argument with
        | none => exact Or.inl rfl
        | some text =>
          simp only [readAmount, readNumber]
          split
          · exact Or.inr (Or.inl ⟨_, rfl⟩)
          · split
            · exact Or.inr (Or.inr rfl)
            · exact Or.inl rfl
      rcases hamount with hnil | ⟨anomaly, hwarn⟩ | hfault
      · rw [hnil] at hi
        exact absurd hi List.not_mem_nil
      · rw [hwarn] at hi
        obtain rfl := List.mem_singleton.mp hi
        rfl
      · rw [hfault] at hi
        obtain rfl := List.mem_singleton.mp hi
        rfl

/-- **The line that opens a scope**, carried out: the amount is that of its argument, or the indent
of a paragraph. What comes before the end of the line changes no margin, and then the amount is
pushed. -/
theorem Machine.margins_exec_openMargin (isolating : Bool) (m : Machine) (hl : t.startsLine = true)
    (ht : t.called? = some .openMargin) (hline : ∀ v ∈ line, v.startsLine = false) :
    (m.exec (program isolating (t :: line))).page.margins =
      ((readAmount t (Token.argument? line)).2.map Int.ofNat).getD m.page.paragraphIndent ::
        m.page.margins := by
  obtain ⟨⟨opening, heq, hopening⟩, -⟩ := exists_program_argument isolating
    (Token.kind_of_called? ht) hl (Token.wants_openMargin isolating ht) (by simp) hline
  have hsettings := m.settings_exec_opening hopening
  have hstored : (m.exec opening).page.storedIndent = m.page.storedIndent :=
    congrArg Page.Settings.storedIndent hsettings
  have hmargins : (m.exec opening).page.margins = m.page.margins :=
    congrArg Page.Settings.margins hsettings
  have hlast : (Purpose.openMargin.settle t (Token.firstArgument? line)).2 =
      [.openMargin ((readAmount t (Token.firstArgument? line)).2.map Int.ofNat), .setIndent 0,
        .lineBreak] := rfl
  rw [heq, exec_append, hlast, Token.argument?, Token.restOfLine_eq_self hline]
  refine (margins_output _ Page.settings_lineBreak).trans ?_
  simp only [apply, onPage, Page.pushMargin, Page.paragraphIndent, hstored, hmargins]

/-- **The line that closes scopes**, carried out. So many of the latest margins are gone, and the
indents with them. -/
theorem Machine.settings_exec_closeMargin (isolating : Bool) (m : Machine)
    (hl : t.startsLine = true) (ht : t.called? = some .closeMargin)
    (hline : ∀ v ∈ line, v.startsLine = false)
    (hcount : closeCount? line = some d) :
    (m.exec (program isolating (t :: line))).page.margins = m.page.margins.drop d ∧
      (m.exec (program isolating (t :: line))).page.indent = 0 ∧
      (m.exec (program isolating (t :: line))).page.storedIndent = none := by
  obtain ⟨⟨opening, heq, hopening⟩, -⟩ := exists_program_argument isolating
    (Token.kind_of_called? ht) hl (Token.wants_closeMargin isolating ht) (by simp) hline
  have hmargins : (m.exec opening).page.margins = m.page.margins :=
    congrArg Page.Settings.margins (m.settings_exec_opening hopening)
  have hamount := readAmount_of_closeCount? t line
  rw [hcount, Token.argument?, Token.restOfLine_eq_self hline] at hamount
  rw [heq, exec_append]
  refine ⟨?_, rfl, rfl⟩
  simp only [Purpose.settle, exec_cons, exec_nil, apply, onPage, hamount.2, hmargins]

/-! ## Blocks -/

/-- The faults of the lines of a block are those of numbers. The lines of the block are read as if
they stood at the beginning of a source, and the source has no other faults up to the start of a
line. -/
theorem eq_numberOverflow_of_mem_block {cause : Fault}
    (hsource : Token.ofSource source = before ++ t :: (line ++ (body ++ u :: after)))
    (ht : t.called? = some .openMargin) (hl : t.startsLine = true) (hl' : u.startsLine = true)
    (hline : ∀ v ∈ line, v.startsLine = false) (hbody : ∀ v ∈ body.head?, v.startsLine = true)
    (htop : AtTop isolating before) (hcause : Instr.fault cause ∈ program isolating body) :
    cause = .numberOverflow := by
  obtain ⟨q, hstage, -⟩ := Stage.after_ofSource source
  rw [hsource] at hstage
  obtain ⟨s, hbefore, hs, -⟩ := Stage.exists_after_of_startsLine hstage hl
  have hprogram := program_append_argument hbefore hs htop (Token.kind_of_called? ht) hl
    (Token.wants_openMargin isolating ht) (by simp) hline hbody
  have hmem : Instr.fault cause ∈ program isolating (before ++ t :: (line ++ body)) := by
    rw [hprogram]
    exact List.mem_append_right _ (List.mem_append_right _ hcause)
  have hsplit : Token.ofSource source = (before ++ t :: (line ++ body)) ++ u :: after := by
    rw [hsource]
    simp
  exact eq_numberOverflow_of_mem_program hsplit (by simpa using hl') cause hmem

/-- **Blocks with a margin of their own.** Let a macro at the top of a document open a margin scope,
and a macro at the top further down close one, and let the lines between them close no more scopes
than they have opened and leave none open. The program of the document then has a part for the one
macro, one for the lines and one for the other. Wherever these three are carried out without a
fault, the margins from before, with that of the first macro above them, are there at every point
between the two macros. Behind the second, the margins are those from before, there is no indent,
and none is stored.

**Proof sketch.** Counted from nothing, the lines between the macros do not fail, so that none of
them closes a scope that was open before. -/
theorem margins_block
    (hsource : Token.ofSource source =
      before ++ t :: (line ++ (body ++ u :: (ending ++ after))))
    (ht : t.called? = some .openMargin) (hu : u.called? = some .closeMargin)
    (hcount : closeCount? ending = some 1)
    (hline : ∀ v ∈ line, v.startsLine = false) (hbody : ∀ v ∈ body.head?, v.startsLine = true)
    (hending : ∀ v ∈ ending, v.startsLine = false)
    (hafter : ∀ v ∈ after.head?, v.startsLine = true)
    (htop : AtTop isolating before) (htop' : AtTop isolating (before ++ t :: (line ++ body)))
    (hheading : isolating = false → ∀ v ∈ body, v.called? ≠ some .heading)
    (hwithin : ∀ first v rest k, body = first ++ v :: rest → v.called? = some .closeMargin →
      closeCount? rest = some k → k ≤ openScopes isolating 0 first)
    (hclosed : openScopes isolating 0 body = 0) :
    program isolating (Token.ofSource source) =
        program isolating before ++ (program isolating (t :: line) ++ (program isolating body ++
          (program isolating (u :: ending) ++ program isolating after))) ∧
      ∀ m : Machine, (m.run (program isolating (t :: line) ++ (program isolating body ++
          program isolating (u :: ending)))).fault = none →
        let amount :=
          ((readAmount t (Token.argument? line)).2.map Int.ofNat).getD m.page.paragraphIndent
        let o := m.run (program isolating (t :: line) ++ (program isolating body ++
          program isolating (u :: ending)))
        (∀ is, is <+: program isolating body →
          amount :: m.page.margins <:+
            (m.run (program isolating (t :: line) ++ is)).machine.page.margins) ∧
        o.machine.page.margins = m.page.margins ∧ o.machine.page.indent = 0 ∧
        o.machine.page.storedIndent = none := by
  have hplaced : ∀ v ∈ Token.ofSource source, v.IsPlaced :=
    fun v hv => Token.isPlaced_of_mem_ofSource hv
  obtain ⟨q, hstage, -⟩ := Stage.after_ofSource source
  rw [hsource] at hplaced hstage
  have hk := Token.kind_of_called? ht
  have hk' := Token.kind_of_called? hu
  have hl : t.startsLine = true := (hplaced t (by simp)).startsLine_of_macroName hk
  have hl' : u.startsLine = true := (hplaced u (by simp)).startsLine_of_macroName hk'
  have hwants := Token.wants_openMargin isolating ht
  have hwants' := Token.wants_closeMargin isolating hu
  refine ⟨?_, ?_⟩
  · rw [hsource]
    exact program_block hstage htop htop' hk hl hwants (by simp) hk' hl' hwants' (by simp) hline
      hbody hending hafter
  intro m hfault amount o
  have hfaults : ∀ cause, Instr.fault cause ∈ program isolating body → cause = .numberOverflow :=
    fun cause hcause => eq_numberOverflow_of_mem_block hsource ht hl hl' hline hbody htop hcause
  -- no fault at the end means none anywhere: the run executes all instructions, and the scopes are
  -- counted without an error
  have hrun : o = ⟨m.exec (program isolating (t :: line) ++ (program isolating body ++
      program isolating (u :: ending))), none⟩ := Machine.run_eq_exec_of_fault_eq_none hfault
  obtain ⟨e, he⟩ := Machine.fault_run_eq_none_iff.mp hfault
  obtain ⟨c, -, hmore⟩ := countScopes_append_eq_ok_iff.mp he
  obtain ⟨c', hblock, -⟩ := countScopes_append_eq_ok_iff.mp hmore
  -- the body alone closes what it opens, so it can be counted from no scope at all
  have hzero : countScopes 0 (program isolating body) = .ok 0 := by
    have hcount := countScopes_program_eq_ok (fun v hv => hplaced v (by simp [hv])) hfaults
      hheading hwithin hblock
    rwa [hclosed] at hcount
  have hreset := resetsNoMargins_program hheading
  have hopen : (m.exec (program isolating (t :: line))).page.margins =
      [] ++ (amount :: m.page.margins) := m.margins_exec_openMargin isolating hl ht hline
  refine ⟨fun is his => ?_, ?_⟩
  · obtain ⟨rest, hrest⟩ := his
    have hwhole : program isolating (t :: line) ++ (program isolating body ++
        program isolating (u :: ending)) = (program isolating (t :: line) ++ is) ++
          (rest ++ program isolating (u :: ending)) := by
      rw [← hrest]
      simp only [List.append_assoc]
    -- the first part of a run without a fault has none
    have hfirst : (m.run (program isolating (t :: line) ++ is)).fault = none :=
      Machine.fault_run_eq_none_of_append (hwhole ▸ hfault)
    obtain ⟨more, hmore⟩ := Machine.exists_margins_exec_of_isPrefix hopen hreset hzero
      ⟨rest, hrest⟩
    rw [Machine.run_eq_exec_of_fault_eq_none hfirst, Machine.exec_append]
    exact ⟨more, hmore.symm⟩
  · obtain ⟨more, hmore, hlength⟩ := Machine.exists_margins_exec hopen hreset hzero
    -- no scope of the body is left open, so the margins are those of the block
    obtain rfl := List.length_eq_zero_iff.mp hlength
    have hclose := Machine.settings_exec_closeMargin isolating
      ((m.exec (program isolating (t :: line))).exec (program isolating body)) hl' hu hending hcount
    rw [hmore] at hclose
    rw [hrun]
    simp only [Machine.exec_append]
    exact hclose

/-- A block of which a paragraph has a macro that opens a scope for its tag, and closes the scope
again. -/
theorem margins_block_of_tag :
    ∃ (before line body : List Token) (t u : Token),
      Token.ofSource "a\n.RS 3\n.TP\n.RS\n.RE\n.RE\n".toList =
        before ++ t :: (line ++ (body ++ u :: ([] ++ []))) ∧
      body.map Token.called? = [some .tagged, some .openMargin, some .closeMargin] ∧
      (readAmount t (Token.argument? line)).2 = some 3 ∧
      AtTop false before ∧ AtTop false (before ++ t :: (line ++ body)) ∧
      openScopes false 0 body = 0 ∧
      ((Machine.started none 40).run (program false (t :: line) ++ (program false body ++
        program false [u]))).fault = none ∧
      ∀ m : Machine, (m.run (program false (t :: line) ++ (program false body ++
          program false [u]))).fault = none →
        let amount :=
          ((readAmount t (Token.argument? line)).2.map Int.ofNat).getD m.page.paragraphIndent
        let o := m.run (program false (t :: line) ++ (program false body ++ program false [u]))
        (∀ is, is <+: program false body →
          amount :: m.page.margins <:+
            (m.run (program false (t :: line) ++ is)).machine.page.margins) ∧
        o.machine.page.margins = m.page.margins ∧ o.machine.page.indent = 0 ∧
        o.machine.page.storedIndent = none := by
  let tag : Token := ⟨.macroName, ['.', 'T', 'P'], true, 3, 1⟩
  let opened : Token := ⟨.macroName, ['.', 'R', 'S'], true, 4, 1⟩
  let closed : Token := ⟨.macroName, ['.', 'R', 'E'], true, 5, 1⟩
  have hwithin : ∀ first v rest k, [tag, opened, closed] = first ++ v :: rest →
      v.called? = some .closeMargin → closeCount? rest = some k →
      k ≤ openScopes false 0 first := by
    intro first v rest k hsplit hcalled hk
    rcases List.cons_eq_append_iff.mp hsplit with ⟨rfl, htag⟩ | ⟨first, rfl, hmore⟩
    · obtain ⟨rfl, -⟩ := List.cons.inj htag
      exact absurd hcalled (by decide)
    rcases List.cons_eq_append_iff.mp hmore with ⟨rfl, hopen⟩ | ⟨first, rfl, hlast⟩
    · obtain ⟨rfl, -⟩ := List.cons.inj hopen
      exact absurd hcalled (by decide)
    rcases List.cons_eq_append_iff.mp hlast with ⟨rfl, hclose⟩ | ⟨first, rfl, hnil⟩
    · obtain ⟨-, rfl⟩ := List.cons.inj hclose
      obtain rfl : 1 = k := Option.some.inj hk
      decide
    · exact absurd hnil (by simp)
  have hsource : Token.ofSource "a\n.RS 3\n.TP\n.RS\n.RE\n.RE\n".toList =
      [⟨.word, ['a'], true, 1, 1⟩] ++ ⟨.macroName, ['.', 'R', 'S'], true, 2, 1⟩ ::
        ([⟨.blank, [' '], false, 2, 4⟩, ⟨.word, ['3'], false, 2, 5⟩] ++
          ([tag, opened, closed] ++ ⟨.macroName, ['.', 'R', 'E'], true, 6, 1⟩ :: ([] ++ []))) := by
    decide +kernel
  have htop : AtTop false [⟨.word, ['a'], true, 1, 1⟩] := by decide +kernel
  have hblock := (margins_block hsource (by decide) (by decide) (by decide) (by decide) (by decide)
    (by decide) (by decide) htop (by decide +kernel) (by decide) hwithin (by decide)).2
  exact ⟨_, _, _, _, _, hsource, by decide, by decide +kernel, htop, by decide +kernel, by decide,
    by decide +kernel, hblock⟩

end Manpage

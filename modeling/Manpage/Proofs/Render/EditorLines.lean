import Manpage.Proofs.Render.Diagnostics
import Manpage.Proofs.Text.LineEnds

/-!
# Diagnostics and the lines of an editor

A diagnostic begins on the line of the token that it is about, as this library numbers lines. An
editor counts fewer line ends, so it takes a diagnostic for one of a later line where any of the
others stands before the token.

## Main definitions

* `Manpage.Token.textBefore` — what stands in a source before a token.
* `Manpage.Diagnostic.IsAbout` — the token that a diagnostic is about.

## Main results

* `Manpage.diagnose_line` — the line of a diagnostic, by what stands before its token.
* `Manpage.not_forall_diagnose_line` — an editor may count fewer lines.
-/

namespace Manpage

variable {source : Text} {t : Token} {d : Diagnostic} {ds : List Diagnostic}

/-- What stands in a source before a token. -/
def Token.textBefore (source : Text) (t : Token) : Text :=
  source.beforeLine (t.line - 1).toNat ++ (sourceLine source t.line).take (t.column - 1).toNat

/-- A diagnostic of a source about a token: that of the fault of the token, or of a warning about
it. -/
def Diagnostic.IsAbout (source : Text) (t : Token) (d : Diagnostic) : Prop :=
  (∃ cause, (interpretSource source none defaultColumns).fault = some cause ∧
    cause.token? = some t ∧ d = .ofFault source cause) ∨
  ∃ anomaly, .warn anomaly t ∈ program false (Token.ofSource source) ∧
    d = .ofWarning (.about anomaly t)

/-- A token of a source stands behind what stands before it, which ends the lines before its own.

**Proof sketch.** The token stands on one of the lines of its source, behind what it holds before.
The source up to that line ends as many lines as there are before it, and no character before the
token on its line ends one. -/
theorem Token.textBefore_eq (ht : t ∈ ofSource source) :
    (∃ after, source = t.textBefore source ++ t.value ++ after) ∧
      ((t.textBefore source).protocolEnds : Int) + (t.textBefore source).countP isOtherEnd =
        t.line - 1 := by
  obtain ⟨k, line, before, after, hline, hnumber, hstands⟩ := exists_standsOn ht
  have hplain : ∀ c ∈ before, isLineEnd c = false := by
    intro c hc
    refine (Text.mem_splitLines (List.mem_of_getElem? hline) c ?_).2
    rw [hstands.line_eq]
    exact List.mem_append_left _ (List.mem_append_left _ hc)
  have htext : t.textBefore source = source.beforeLine k ++ before := by
    have hsource : sourceLine source t.line = line := by rw [hnumber, sourceLine_eq hline]
    rw [textBefore, hsource, hnumber, hstands.column_eq, hstands.line_eq, Int.add_sub_cancel,
      Int.add_sub_cancel, Int.toNat_natCast, Int.toNat_natCast, List.append_assoc,
      List.take_left]
  refine ⟨?_, ?_⟩
  · obtain ⟨rest, hrest⟩ := Text.exists_eq_beforeLine_append hline
    refine ⟨after ++ rest, ?_⟩
    conv_lhs => rw [hrest, hstands.line_eq]
    simp only [htext, List.append_assoc]
  · have hends := Text.ends_beforeLine hline
    rw [htext, Text.protocolEnds_append _ hplain, List.countP_append,
      Text.countP_isOtherEnd_eq_zero hplain]
    omega

/-- Every diagnostic is about a token of its source, on the line of that token. It comes from a
warning, or from the fault, which both speak of a token. -/
theorem exists_isAbout (h : diagnose source = .ok ds) (hd : d ∈ ds) :
    ∃ t ∈ Token.ofSource source, d.IsAbout source t ∧ d.line = t.line - 1 := by
  have hwarning : d ∈ (interpretSource source none defaultColumns).machine.warnings.map
      Diagnostic.ofWarning →
      ∃ t ∈ Token.ofSource source, d.IsAbout source t ∧ d.line = t.line - 1 := by
    intro hd
    obtain ⟨w, hw, rfl⟩ := List.mem_map.mp hd
    obtain ⟨anomaly, t, rfl, hwarn, ht, -⟩ := exists_token_of_mem_warnings hw
    exact ⟨t, ht, Or.inr ⟨anomaly, hwarn, rfl⟩, rfl⟩
  rcases diagnose_eq_cases source with ⟨-, hdiagnose⟩ | ⟨t, ht, -, -, hsome, hdiagnose⟩ | ⟨-, hover⟩
  · obtain rfl := Except.ok.inj (h.symm.trans hdiagnose)
    exact hwarning hd
  · obtain rfl := Except.ok.inj (h.symm.trans hdiagnose)
    rcases List.mem_cons.mp hd with rfl | hd
    · exact ⟨t, ht, Or.inl ⟨_, hsome, rfl, rfl⟩, rfl⟩
    · exact hwarning hd
  · exact absurd (h.symm.trans hover) (by simp)

/-- **The line of a diagnostic** is the number of all line ends before the token that it is about.
It is the number of those that an editor counts just where no other line end stands there. -/
theorem diagnose_line (h : diagnose source = .ok ds) (hd : d ∈ ds) :
    ∃ t ∈ Token.ofSource source, d.IsAbout source t ∧
      (∃ after, source = t.textBefore source ++ t.value ++ after) ∧
      d.line = ((t.textBefore source).protocolEnds : Int)
        + (t.textBefore source).countP isOtherEnd ∧
      (d.line = ((t.textBefore source).protocolEnds : Int) ↔
        ∀ c ∈ t.textBefore source, isOtherEnd c = false) := by
  obtain ⟨t, ht, habout, hline⟩ := exists_isAbout h hd
  obtain ⟨hafter, hends⟩ := Token.textBefore_eq ht
  refine ⟨t, ht, habout, hafter, hline.trans hends.symm, ?_⟩
  have hnone : (t.textBefore source).countP isOtherEnd = 0 ↔
      ∀ c ∈ t.textBefore source, isOtherEnd c = false := by
    simp [List.countP_eq_zero]
  rw [← hnone]
  omega

/-- A form feed on the first line of a source: the macro stands on the third line of the source, and
on the second of an editor. -/
theorem diagnose_line_of_form_feed :
    let source := "a\x0c\n.XY\n".toList
    let d : Diagnostic := ⟨.warning, (Anomaly.unknownMacro ".XY".toList).message, 2, 0, 1⟩
    diagnose source = .ok [d] ∧ ∃ t ∈ Token.ofSource source, d.IsAbout source t ∧
      2 = ((t.textBefore source).protocolEnds : Int) + (t.textBefore source).countP isOtherEnd := by
  intro source d
  have hdiagnose : diagnose source = .ok [d] := by decide +kernel
  obtain ⟨t, ht, habout, -, hline, -⟩ := diagnose_line hdiagnose (List.mem_singleton.mpr rfl)
  exact ⟨hdiagnose, t, ht, habout, hline⟩

/-- An editor may count fewer lines: the line of a diagnostic is not always the number of the line
ends that an editor counts before its token. -/
theorem not_forall_diagnose_line :
    ¬ ∀ (source : Text) (ds : List Diagnostic) (d : Diagnostic) (t : Token),
      diagnose source = .ok ds → d ∈ ds → t ∈ Token.ofSource source → d.IsAbout source t →
        d.line = ((t.textBefore source).protocolEnds : Int) := by
  intro h
  let source := "a\x0c\n.XY\n".toList
  let t : Token := ⟨.macroName, ".XY".toList, true, 3, 1⟩
  let d : Diagnostic := .ofWarning (.about (.unknownMacro ".XY".toList) t)
  have hline := h source [d] d t (by decide +kernel) (List.mem_singleton.mpr rfl)
    (by decide +kernel) (Or.inr ⟨_, by decide +kernel, rfl⟩)
  exact absurd hline (by decide +kernel)

end Manpage

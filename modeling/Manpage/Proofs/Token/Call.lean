import Manpage.Macro
import Manpage.Number.Numeral
import Manpage.Proofs.Token.Stage

/-!
# Calls of macros among tokens

A token calls a macro, and the tokens after it on its line hold the arguments. What the first
argument is can be said of the tokens alone: the characters between two quotes, or those up to the
next blank.

The tokens of a source are placed in order: macros start their lines, and no line starts with a part
of an escape.

## Main definitions

* `Manpage.Token.called?` — the macro that a token calls.
* `Manpage.Token.restOfLine`, `Manpage.Token.argument?` — the tokens up to the next line, and the
  first argument among them.
* `Manpage.Token.IsPlaced` — a token where a token of its kind may stand.

## Main results

* `Manpage.Token.exists_eq_restOfLine_append` — the tokens of a line, and those of the next.
* `Manpage.Token.isPlaced_of_mem_ofSource` — the tokens of a source are placed.
-/

namespace Manpage

namespace Token

variable {t u : Token} {ts us : List Token} {source : Text}

/-! ## Calls and their arguments -/

/-- The macro that a token calls, if it calls one that has an effect. -/
def called? (t : Token) : Option Macro :=
  if t.kind = .macroName then Macro.ofName? t.value else none

/-- The macro that the name of a macro calls is looked up by that name. -/
theorem called?_of_kind (h : t.kind = .macroName) : t.called? = Macro.ofName? t.value :=
  if_pos h

/-- Only the name of a macro calls one. -/
theorem kind_of_called? {m : Macro} (h : t.called? = some m) : t.kind = .macroName := by
  unfold called? at h
  split at h
  · assumption
  · exact absurd h (by simp)

/-- The tokens up to the start of the next line. -/
def restOfLine (ts : List Token) : List Token :=
  ts.takeWhile fun t => !t.startsLine

/-- The characters of tokens, side by side. -/
def valueOf (ts : List Token) : Text :=
  ts.flatMap Token.value

/-- No tokens have no characters. -/
@[simp] theorem valueOf_nil : valueOf [] = [] := rfl

/-- The characters of tokens begin with those of the first token. -/
@[simp] theorem valueOf_cons (t : Token) (ts : List Token) :
    valueOf (t :: ts) = t.value ++ valueOf ts := rfl

/-- The first argument among tokens of one line, if there is one. -/
def firstArgument? : List Token → Option Text
  | [] => none
  | t :: ts =>
    if t.kind = .blank then firstArgument? ts
    else if t.kind = .quote then some (valueOf (ts.takeWhile fun u => u.kind ≠ .quote))
    else some (t.value ++ valueOf (ts.takeWhile fun u => u.kind ≠ .blank))

/-- The first argument of a macro that these tokens follow, if it has one. -/
def argument? (ts : List Token) : Option Text :=
  firstArgument? (restOfLine ts)

/-- None of the tokens up to the next line starts a line, since the first that does ends them. -/
theorem startsLine_of_mem_restOfLine (h : t ∈ restOfLine ts) : t.startsLine = false := by
  simpa using List.mem_takeWhile_imp h

/-- Tokens of one line. -/
theorem restOfLine_eq_self (h : ∀ t ∈ ts, t.startsLine = false) : restOfLine ts = ts :=
  List.takeWhile_eq_self_iff.mpr fun t ht => by simp [h t ht]

/-- The next line is not part of a line. -/
theorem restOfLine_append (ts : List Token) (ht : t.startsLine = true) :
    restOfLine (ts ++ t :: us) = restOfLine ts := by
  induction ts with
  | nil => simp [restOfLine, ht]
  | cons u ts ih =>
    simp only [restOfLine, List.cons_append, List.takeWhile_cons] at ih ⊢
    rw [ih]

/-- What follows a line begins with a token that starts a line. -/
theorem exists_eq_restOfLine_append (ts : List Token) :
    ∃ more, ts = restOfLine ts ++ more ∧ ∀ t ∈ more.head?, t.startsLine = true := by
  refine ⟨ts.dropWhile fun t => !t.startsLine, (List.takeWhile_append_dropWhile).symm, ?_⟩
  intro t ht
  have hhead := List.head?_dropWhile_not (fun t : Token => !t.startsLine) ts
  rw [Option.mem_def.mp ht] at hhead
  simpa using hhead

/-! ## Tokens in their places -/

/-- A macro starts its line, and a part of an escape does not. -/
structure IsPlaced (t : Token) : Prop where
  startsLine_of_macroName : t.kind = .macroName → t.startsLine = true
  not_part : t.startsLine = true → t.kind ≠ .argument ∧ t.kind ≠ .closeBracket

/-- A token that comes at some stage is placed. A macro comes at the start of a line only, and what
may start a line is no part of an escape. -/
theorem isPlaced_of_next {s q : Stage} (h : s.next t = some q) : t.IsPlaced := by
  refine ⟨fun hk => ?_, fun hl => ?_⟩
  · rcases Stage.next_cases h with ⟨-, -, hfresh⟩ | ⟨-, -, hadvance⟩
    · simp only [Stage.fresh, hk, Option.ite_none_right_eq_some] at hfresh
      exact hfresh.1
    · cases s with
      | between =>
        simp only [Stage.advance, Stage.fresh, hk, Option.ite_none_right_eq_some] at hadvance
        exact hadvance.1
      | command | argument | name | opened | closing => simp [Stage.advance, hk] at hadvance
  · have hfresh := Stage.fresh_of_next (Or.inl hl) h
    refine ⟨?_, ?_⟩
    · intro hk
      simp [Stage.fresh, hk] at hfresh
    · intro hk
      simp [Stage.fresh, hk] at hfresh

/-- Tokens that come one after another are placed. By induction on the tokens. -/
theorem isPlaced_of_after {s q : Stage} (h : s.after ts = some q) : ∀ t ∈ ts, t.IsPlaced := by
  induction ts generalizing s with
  | nil => simp
  | cons t ts ih =>
    simp only [Stage.after, Option.bind_eq_some_iff] at h
    obtain ⟨r, hnext, hafter⟩ := h
    intro u hu
    rcases List.mem_cons.mp hu with rfl | hu
    · exact isPlaced_of_next hnext
    · exact ih hafter u hu

/-- The tokens of a source are placed. -/
theorem isPlaced_of_mem_ofSource (h : t ∈ ofSource source) : t.IsPlaced := by
  obtain ⟨q, hafter, -⟩ := Stage.after_ofSource source
  exact isPlaced_of_after hafter t h

end Token

end Manpage

import Manpage.Fault
import Manpage.Proofs.Token.First

/-!
# Tokens on their lines

A token of a source stands on the line of its number, behind as many characters as its column says.
The name of a macro begins its line with a point, and the command of an escape is one character with
a backslash before it.

## Main definitions

* `Manpage.Token.StandsOn` — a token between what stands before and behind it on a line.

## Main results

* `Manpage.Token.exists_standsOn_of_mem_ofLine` — the tokens of a line.
* `Manpage.Token.exists_standsOn` — the tokens of a source.
* `Manpage.sourceLine_eq` — the line of a number.
-/

namespace Manpage

/-! ## Backslashes and commands -/

namespace Lexeme

variable {x : Lexeme} {t w : Text}

/-- A name in brackets is read as parts of an escape: the name, and the bracket that closes it. -/
theorem isEscapePart_of_mem_bracketed (h : x ∈ (bracketed t).1) : x.kind.isEscapePart = true := by
  unfold bracketed at h
  split at h
  · obtain rfl := List.mem_singleton.mp h
    rfl
  · rcases List.mem_pair.mp h with rfl | rfl
    · rfl
    · rfl

/-- An argument is read as parts of an escape, whatever its form. By cases on its first character.
-/
theorem isEscapePart_of_mem_argument (h : x ∈ (argument t).1) : x.kind.isEscapePart = true := by
  unfold argument at h
  split at h
  · exact absurd h List.not_mem_nil
  · split at h
    · rcases List.mem_pair.mp h with rfl | rfl
      · rfl
      · rfl
    · split at h
      · rcases List.mem_cons.mp h with rfl | h
        · rfl
        · exact isEscapePart_of_mem_bracketed h
      · split at h
        · obtain rfl := List.mem_singleton.mp h
          rfl
        · obtain rfl := List.mem_singleton.mp h
          rfl

/-- What follows a command is neither a backslash nor another command. By cases on the escape, which
takes an argument, a name in brackets, a mnemonic or nothing. -/
theorem isEscapePart_of_mem_afterCommand {e : Escape} (h : x ∈ (afterCommand e t).1) :
    x.kind.isEscapePart = true := by
  unfold afterCommand at h
  split at h
  · exact isEscapePart_of_mem_argument h
  · exact isEscapePart_of_mem_argument h
  · exact isEscapePart_of_mem_argument h
  · exact isEscapePart_of_mem_bracketed h
  · unfold mnemonic at h
    split at h
    · exact absurd h List.not_mem_nil
    · obtain rfl := List.mem_singleton.mp h
      rfl
  all_goals exact absurd h List.not_mem_nil

/-- A lexeme with the value that its class asks for: a backslash is one, and a command is one
character. -/
def IsSign (x : Lexeme) : Prop :=
  (x.kind = .backslash → x.value = ['\\']) ∧ (x.kind = .command → x.value.length = 1)

/-- In a chunk, the lexeme of a backslash is a backslash, and a command is one character.

**Proof sketch.** By induction along the reader: a quote, a backslash with what follows it, or a
plain run. What a command takes are parts of an escape, which are of other kinds. -/
theorem isSign_of_mem_ofChunk (h : x ∈ ofChunk w) : x.IsSign := by
  induction w using ofChunk.induct with
  | case1 => simp [ofChunk] at h
  | case2 c u hc ih =>
    rw [ofChunk, if_pos hc] at h
    rcases List.mem_cons.mp h with rfl | h
    · simp [IsSign]
    · exact ih h
  | case3 c u hq hc ih =>
    rw [ofChunk, if_neg hq, if_pos hc, List.cons_append] at h
    rcases List.mem_cons.mp h with rfl | h
    · simpa [IsSign] using hc
    rcases List.mem_append.mp h with h | h
    · cases u with
      | nil => exact absurd h List.not_mem_nil
      | cons d u =>
        rcases List.mem_cons.mp h with rfl | h
        · simp [IsSign]
        · have hpart := isEscapePart_of_mem_afterCommand h
          constructor
          · intro hk
            rw [hk] at hpart
            exact Bool.noConfusion hpart
          · intro hk
            rw [hk] at hpart
            exact Bool.noConfusion hpart
    · exact ih h
  | case4 c u hq hb ih =>
    rw [ofChunk, if_neg hq, if_neg hb] at h
    rcases List.mem_cons.mp h with rfl | h
    · simp [IsSign]
    · exact ih h

end Lexeme

namespace Stage

variable {s q : Stage} {t : Token} {ts : List Token}

/-- Behind a command, no other command is waited for. -/
theorem ofEscape_ne_command (e : Escape) : ofEscape e ≠ command := by
  cases e <;> simp [ofEscape]

/-- Behind the name of a character, no command is waited for. -/
theorem ofName_ne_command (bracketed : Bool) : ofName bracketed ≠ command := by
  cases bracketed <;> simp [ofName]

/-- Only a backslash leads to the stage before a command. It does so where something new may come;
within an escape no token leads there. -/
theorem kind_of_next_eq_command (h : s.next t = some .command) : t.kind = .backslash := by
  have hfresh : fresh t = some .command → t.kind = .backslash := by
    intro h
    cases hk : t.kind <;> simp_all [fresh]
  rcases next_cases h with ⟨-, -, h⟩ | ⟨-, -, h⟩
  · exact hfresh h
  · cases s with
    | between => exact hfresh h
    | command | argument | name | opened | closing =>
      cases hk : t.kind <;> simp [advance, hk, ofEscape_ne_command, ofName_ne_command] at h

/-- A command comes behind a backslash only. -/
theorem eq_command_of_next (hk : t.kind = .command) (h : s.next t = some q) : s = .command := by
  have hfresh : fresh t ≠ some q := by simp [fresh, hk]
  rcases next_cases h with ⟨-, -, h⟩ | ⟨-, -, h⟩
  · exact absurd h hfresh
  · cases s with
    | command => rfl
    | between => exact absurd h hfresh
    | argument | name | opened | closing => simp [advance, hk] at h

/-- Tokens that a command follows end with a backslash. The stage before the command is reached by
its last token, and only a backslash leads there. -/
theorem exists_backslash_of_after {more : List Token} (hk : t.kind = .command)
    (h : between.after (ts ++ t :: more) = some q) :
    ∃ us u, ts = us ++ [u] ∧ u.kind = .backslash := by
  obtain ⟨r, hbefore, hmore⟩ := exists_after_of_append h
  simp only [after, Option.bind_eq_some_iff] at hmore
  obtain ⟨_, hnext, -⟩ := hmore
  obtain rfl := eq_command_of_next hk hnext
  rcases List.eq_nil_or_concat ts with rfl | ⟨us, u, hts⟩
  · exact absurd hbefore (by simp)
  · rw [List.concat_eq_append] at hts
    subst hts
    obtain ⟨r, -, hlast⟩ := exists_after_of_append hbefore
    simp only [after, Option.bind_eq_some_iff, Option.some.injEq] at hlast
    obtain ⟨_, hnext, rfl⟩ := hlast
    exact ⟨us, u, rfl, kind_of_next_eq_command hnext⟩

end Stage

/-! ## Tokens of a line -/

namespace Token

variable {t : Token} {ts us : List Token} {line source : Text} {lines : List Text} {number : Nat}

/-- A token between what stands before and behind it on a line. -/
structure StandsOn (line before after : Text) (t : Token) : Prop where
  line_eq : line = before ++ t.value ++ after
  column_eq : t.column = before.length + 1
  of_macroName : t.kind = .macroName → before = [] ∧ t.value.head? = some '.'
  of_command : t.kind = .command → before.getLast? = some '\\' ∧ t.value.length = 1

/-- In a line, the token of a backslash is a backslash, and a command is one character. Macros,
blanks and empty lines are of other kinds, and any other token is one of a chunk. -/
theorem isSign_of_mem_ofLine (h : t ∈ ofLine number line) :
    Lexeme.IsSign ⟨t.kind, t.value⟩ := by
  have hchunk : ∀ {m startsLine column}, t ∈ ofChunk m startsLine number column →
      Lexeme.IsSign ⟨t.kind, t.value⟩ := by
    intro m startsLine column h
    obtain ⟨x, hx, hkind, hvalue⟩ := exists_of_mem_place h
    rw [hkind, hvalue]
    cases m with
    | nil => exact absurd hx List.not_mem_nil
    | cons c u =>
      simp only [lexemes] at hx
      split at hx
      · obtain rfl := List.mem_singleton.mp hx
        simp [Lexeme.IsSign]
      · split at hx
        · obtain rfl := List.mem_singleton.mp hx
          simp [Lexeme.IsSign]
        · exact Lexeme.isSign_of_mem_ofChunk hx
  unfold ofLine at h
  split at h
  · obtain rfl := List.mem_singleton.mp h
    simp [Lexeme.IsSign]
  · split at h
    · exact absurd h List.not_mem_nil
    · split at h
      · exact absurd h List.not_mem_nil
      · rcases List.mem_append.mp h with h | h
        · exact hchunk h
        · obtain ⟨_, -, h⟩ := List.mem_flatMap.mp h
          exact hchunk h

/-- The name of a macro begins its line, with a point. A macro stands only at the beginning of its
line, and its text is the first chunk. -/
theorem Spells.of_macroName (h : Spells line (ts ++ t :: us)) (hk : t.kind = .macroName) :
    ts = [] ∧ t.value.head? = some '.' := by
  have hmem : t ∈ ts ++ t :: us := by simp
  obtain ⟨hhead, htext⟩ := h.macroName_eq t hmem hk
  have hpoint : line.head? = some '.' := h.exists_macroName_iff.mp ⟨t, hmem, hk⟩
  refine ⟨?_, ?_⟩
  · cases ts with
    | nil => rfl
    | cons u ts =>
      obtain rfl : u = t := by simpa using hhead
      have hl : u.startsLine = true := (h.startsLine_iff [] u _ rfl).mpr rfl
      exact (h.startsLine_iff (u :: ts) u us rfl).mp hl
  · unfold Chunk.ofLine at htext
    cases hms : line.splitBy sameChunk with
    | nil => simp [hms, Chunk.place] at htext
    | cons m ms =>
      obtain rfl : m = t.value := by simpa [hms, Chunk.place] using htext
      rwa [head?_line_eq hms] at hpoint

/-- The command of an escape is one character, behind a backslash. A backslash is the token before
it, and the value of a backslash is one. -/
theorem of_command_of_ofLine_eq (h : ofLine number line = ts ++ t :: us)
    (hk : t.kind = .command) :
    (valueOf ts).getLast? = some '\\' ∧ t.value.length = 1 := by
  have hsign : ∀ u ∈ ts ++ t :: us, Lexeme.IsSign ⟨u.kind, u.value⟩ :=
    fun u hu => isSign_of_mem_ofLine (h ▸ hu)
  obtain ⟨q, hafter, -⟩ := Stage.after_ofLine (s := .between) number line rfl
  rw [h] at hafter
  obtain ⟨ts, u, rfl, hu⟩ := Stage.exists_backslash_of_after hk hafter
  have hbackslash : u.value = ['\\'] := (hsign u (by simp)).1 hu
  exact ⟨by simp [valueOf_append, hbackslash], (hsign t (by simp)).2 hk⟩

/-- **Tokens stand on their line.** The characters of a token of a line are those behind as many as
its column says.

**Proof sketch.** A blank line has a token without characters. The tokens of any other line spell it
out, so those before a token give what stands before it. -/
theorem exists_standsOn_of_mem_ofLine (h : t ∈ ofLine number line) :
    ∃ before after, t.StandsOn line before after := by
  cases hblank : line.isBlank with
  | true =>
    rw [ofLine_of_isBlank number hblank] at h
    obtain rfl := List.mem_singleton.mp h
    exact ⟨[], line, rfl, rfl, by simp, by simp⟩
  | false =>
  cases hcomment : isCommentLine line with
  | true =>
    rw [ofLine_of_isCommentLine number hblank hcomment] at h
    exact absurd h List.not_mem_nil
  | false =>
  have hspells := spells_ofLine number hblank hcomment
  obtain ⟨ts, us, heq⟩ := List.append_of_mem h
  rw [heq] at hspells
  have hvalue := hspells.valueOf_eq
  rw [valueOf_append, valueOf_cons, ← List.append_assoc] at hvalue
  refine ⟨valueOf ts, valueOf us, hvalue.symm, ?_, fun hk => ?_, of_command_of_ofLine_eq heq⟩
  · rw [hspells.column_eq ts t us rfl]
    omega
  · obtain ⟨rfl, hpoint⟩ := hspells.of_macroName hk
    exact ⟨rfl, hpoint⟩

/-! ## Tokens of a source -/

/-- A token of several lines is one of the line of its number. By induction on the lines. -/
theorem exists_mem_ofLine (h : t ∈ ofLines number lines) :
    ∃ (k : Nat) (line : Text), lines[k]? = some line ∧ t ∈ ofLine (number + k) line := by
  induction lines generalizing number with
  | nil => exact absurd h List.not_mem_nil
  | cons first lines ih =>
    rcases List.mem_append.mp h with h | h
    · exact ⟨0, first, rfl, h⟩
    · obtain ⟨k, line, hline, h⟩ := ih h
      refine ⟨k + 1, line, by simpa using hline, ?_⟩
      rwa [Nat.add_right_comm] at h

/-- **The tokens of a source stand on its lines**, each on the line of its number. -/
theorem exists_standsOn (h : t ∈ ofSource source) :
    ∃ (k : Nat) (line before after : Text), source.splitLines[k]? = some line ∧ t.line = k + 1 ∧
      t.StandsOn line before after := by
  obtain ⟨k, line, hline, h⟩ := exists_mem_ofLine h
  obtain ⟨before, after, hstands⟩ := exists_standsOn_of_mem_ofLine h
  refine ⟨k, line, before, after, hline, ?_, hstands⟩
  rw [line_of_mem_ofLine h]
  omega

end Token

/-- The line of a number, counted from one. -/
theorem sourceLine_eq {source line : Text} {k : Nat} (h : source.splitLines[k]? = some line) :
    sourceLine source (k + 1) = line := by
  have hk : ¬ (k : Int) + 1 < 1 := by omega
  rw [sourceLine, if_neg hk, Int.add_sub_cancel, Int.toNat_natCast, h, Option.getD_some]

end Manpage

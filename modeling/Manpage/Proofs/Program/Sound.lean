import Manpage.Program.Basic
import Mathlib.Tactic.Lemma

/-!
# Sound instructions and words in programs

What the instructions of a program speak of comes from the tokens: the texts that are shown, the
tokens that are consumed, warned about, or that close margin scopes. Beyond that, a program deals
with words in one way only. Between `openWord` and the scope's end there is nothing but shown
texts, records and changes of style, and after a space no text is shown any more.

## Main definitions

* `Manpage.Instr.IsSound` — an instruction speaks of the given tokens.
* `Manpage.WordPhase` — whether a word is open, with `Manpage.WordPhase.next` and
  `Manpage.WordPhase.after`, the phase after instructions.
* `Manpage.Carries` — sound instructions that lead from one phase to another.

## Main results

* `Manpage.Purpose.settle_sound`, `Manpage.ArgumentUse.settle_sound` — the instructions for
  arguments of macros and escapes are sound.
* `Manpage.Macro.ofName?_eq_closeMargin` — one name closes margin scopes.
-/

namespace Manpage

/-! ## Sound instructions -/

/-- A text that is shown is the value of a word or a quote, or stands for an escape. -/
def IsShown (tokens : List Token) (text : Text) : Prop :=
  (∃ t ∈ tokens, (t.kind = .word ∨ t.kind = .quote) ∧ t.value = text) ∨
    text ∈ [['-'], ['\\'], ['\'']]

/-- An instruction that speaks of the given tokens. Warnings are about calls of macros and commands
of escapes, scopes are closed on behalf of the macro that closes them, and the only fault is that
of a number. -/
def Instr.IsSound (tokens : List Token) : Instr → Prop
  | .consume t => t ∈ tokens
  | .note t => t ∈ tokens
  | .warn _ t => t ∈ tokens ∧ (t.kind = .macroName ∨ t.kind = .command)
  | .emit text => IsShown tokens text
  | .blank text => ∃ t ∈ tokens, t.kind = .blank ∧ t.value = text
  | .closeMargins _ t =>
    t ∈ tokens ∧ t.kind = .macroName ∧ Macro.ofName? t.value = some .closeMargin
  | .fault cause => cause = .numberOverflow
  | _ => True

/-- The macro of a name stands in the table under the name that it is an alias of. -/
theorem Macro.mem_names {name : Text} {m : Macro} (h : Macro.ofName? name = some m) :
    (Macro.canonicalName name, m) ∈ Macro.names := by
  obtain ⟨before, after, heq, -⟩ := List.lookup_eq_some_iff.mp h
  rw [heq]
  exact List.mem_append_right before List.mem_cons_self

/-- One name closes margin scopes. It is no alias, and the name that an alias stands for is never
this one. -/
theorem Macro.ofName?_eq_closeMargin {name : Text} (h : Macro.ofName? name = some .closeMargin) :
    name = ['.', 'R', 'E'] := by
  have hcanonical : Macro.canonicalName name = ['.', 'R', 'E'] := by
    simpa [Macro.names] using Macro.mem_names h
  unfold Macro.canonicalName at hcanonical
  split at hcanonical
  · exact absurd hcanonical (by decide)
  · exact absurd hcanonical (by decide)
  · exact hcanonical

/-! ## Phases -/

/-- How far a word is. -/
inductive WordPhase where
  /-- no word is open -/
  | outside
  /-- a word is open -/
  | inside
  /-- a word is open, and a space stands at its end -/
  | spaced
deriving DecidableEq

namespace WordPhase

/-- The phase after an instruction, if the instruction may come there. -/
def next : WordPhase → Instr → Option WordPhase
  | outside, .openWord => some inside
  | outside, _ => some outside
  | _, .closeScope => some outside
  | _, .space => some spaced
  | inside, .emit _ => some inside
  | φ, .consume _ => some φ
  | φ, .note _ => some φ
  | φ, .warn _ _ => some φ
  | φ, .setStyle _ _ => some φ
  | φ, .plainStyle => some φ
  | _, _ => none

/-- The phase after several instructions. -/
def after (φ : WordPhase) : List Instr → Option WordPhase
  | [] => some φ
  | i :: more => (φ.next i).bind fun ψ => ψ.after more

variable {φ ψ : WordPhase} {i : Instr} {is js : List Instr}

/-- No instructions leave the phase as it is. -/
@[simp] theorem after_nil (φ : WordPhase) : φ.after [] = some φ := rfl

/-- The phase behind two rows of instructions is that of the second, from the phase behind the first
on. -/
theorem after_append (h : φ.after is = some ψ) : φ.after (is ++ js) = ψ.after js := by
  induction is generalizing φ with
  | nil =>
    obtain rfl : φ = ψ := by simpa using h
    rfl
  | cons i is ih =>
    simp only [after, Option.bind_eq_some_iff] at h
    obtain ⟨χ, hχ, h⟩ := h
    simp only [List.cons_append, after, hχ, Option.bind_some]
    exact ih h

/-- Where a phase is reached behind two rows of instructions, one is reached between the rows. The
phases go through the first row on their way. -/
theorem exists_after_of_append (h : φ.after (is ++ js) = some ψ) :
    ∃ χ, φ.after is = some χ ∧ WordPhase.after χ js = some ψ := by
  cases his : φ.after is with
  | some χ => exact ⟨χ, rfl, by rwa [after_append his] at h⟩
  | none =>
    induction is generalizing φ with
    | nil => exact absurd his (by simp)
    | cons i is ih =>
      simp only [List.cons_append, after, Option.bind_eq_some_iff] at h
      obtain ⟨χ, hnext, h⟩ := h
      simp only [after, hnext, Option.bind_some] at his
      exact ih h his

/-- Outside of words, whatever does not open one stays outside. -/
theorem next_outside (h : i ≠ .openWord) : outside.next i = some outside := by
  cases i with
  | openWord => exact absurd rfl h
  | _ => rfl

/-- Outside of words the phase stays the same as long as none is opened. -/
theorem after_outside (h : ∀ i ∈ is, i ≠ .openWord) : outside.after is = some outside := by
  induction is with
  | nil => rfl
  | cons i is ih =>
    simp only [after, next_outside (h i List.mem_cons_self), Option.bind_some]
    exact ih fun j hj => h j (List.mem_cons_of_mem i hj)

end WordPhase

/-- Instructions that may come anywhere in a word: records and changes of style. -/
def Instr.isQuiet : Instr → Bool
  | .consume _ | .note _ | .warn _ _ | .setStyle _ _ | .plainStyle => true
  | _ => false

/-- An instruction that shows a text. -/
def Instr.isEmit : Instr → Bool
  | .emit _ => true
  | _ => false

/-- Records and changes of style stay in every phase. -/
theorem WordPhase.next_of_isQuiet {i : Instr} (φ : WordPhase) (h : i.isQuiet = true) :
    φ.next i = some φ := by
  cases i with
  | consume | note | warn | setStyle | plainStyle => cases φ <;> rfl
  | _ => exact Bool.noConfusion h

/-- A text that is shown stays in its phase, unless a space stands at the end of the word. -/
theorem WordPhase.next_of_isEmit {φ : WordPhase} {i : Instr} (hφ : φ ≠ .spaced)
    (h : i.isEmit = true) : φ.next i = some φ := by
  cases i with
  | emit =>
    cases φ with
    | outside | inside => rfl
    | spaced => exact absurd rfl hφ
  | _ => exact Bool.noConfusion h

/-! ## Sound instructions that lead from phase to phase -/

/-- Sound instructions that lead from one phase to another. -/
structure Carries (tokens : List Token) (φ : WordPhase) (is : List Instr) (ψ : WordPhase) :
    Prop where
  after_eq : φ.after is = some ψ
  sound : ∀ i ∈ is, i.IsSound tokens

namespace Carries

variable {tokens : List Token} {φ ψ χ : WordPhase} {i : Instr} {is js : List Instr}

/-- No instructions lead from a phase to itself. -/
theorem nil (tokens : List Token) (φ : WordPhase) : Carries tokens φ [] φ :=
  ⟨rfl, by simp⟩

/-- A sound instruction, and others behind it, lead on from phase to phase. -/
theorem cons (hi : φ.next i = some ψ) (hs : i.IsSound tokens) (h : Carries tokens ψ is χ) :
    Carries tokens φ (i :: is) χ := by
  refine ⟨by simp only [WordPhase.after, hi, Option.bind_some, h.after_eq], ?_⟩
  intro j hj
  rcases List.mem_cons.mp hj with rfl | hj
  · exact hs
  · exact h.sound j hj

/-- Two rows of sound instructions lead on from phase to phase. -/
theorem append (h : Carries tokens φ is ψ) (h' : Carries tokens ψ js χ) :
    Carries tokens φ (is ++ js) χ := by
  refine ⟨by rw [WordPhase.after_append h.after_eq, h'.after_eq], ?_⟩
  intro j hj
  rcases List.mem_append.mp hj with hj | hj
  · exact h.sound j hj
  · exact h'.sound j hj

/-- Outside of words. -/
theorem outside (h : ∀ i ∈ is, i.IsSound tokens ∧ i ≠ .openWord) :
    Carries tokens .outside is .outside :=
  ⟨WordPhase.after_outside fun i hi => (h i hi).2, fun i hi => (h i hi).1⟩

/-- Records and changes of style. -/
theorem quiet (φ : WordPhase) (h : ∀ i ∈ is, i.IsSound tokens ∧ i.isQuiet = true) :
    Carries tokens φ is φ := by
  induction is with
  | nil => exact nil tokens φ
  | cons i is ih =>
    obtain ⟨hs, hq⟩ := h i List.mem_cons_self
    exact cons (WordPhase.next_of_isQuiet φ hq) hs
      (ih fun j hj => h j (List.mem_cons_of_mem i hj))

/-- Records, changes of style and shown texts. None of these changes the phase, if a text is not
shown behind a space. -/
theorem shown (hφ : φ ≠ .spaced)
    (h : ∀ i ∈ is, i.IsSound tokens ∧ (i.isQuiet = true ∨ i.isEmit = true)) :
    Carries tokens φ is φ := by
  induction is with
  | nil => exact nil tokens φ
  | cons i is ih =>
    obtain ⟨hs, hq⟩ := h i List.mem_cons_self
    have hnext : φ.next i = some φ := by
      rcases hq with hq | hq
      · exact WordPhase.next_of_isQuiet φ hq
      · exact WordPhase.next_of_isEmit hφ hq
    exact cons hnext hs (ih fun j hj => h j (List.mem_cons_of_mem i hj))

end Carries

/-! ## Arguments -/

/-- A token that calls a macro with an argument for the given purpose. -/
structure IsCaller (tokens : List Token) (p : Purpose) (t : Token) : Prop where
  mem : t ∈ tokens
  kind_eq : t.kind = .macroName
  closes : p = .closeMargin → Macro.ofName? t.value = some .closeMargin

/-- A token that is the command of an escape. -/
structure IsCommand (tokens : List Token) (t : Token) : Prop where
  mem : t ∈ tokens
  kind_eq : t.kind = .command

variable {tokens : List Token} {t : Token}

/-- Reading a number brings sound instructions and opens no word. -/
theorem readNumber_sound (ht : t ∈ tokens) (hk : t.kind = .macroName) (argument : Text) :
    ∀ i ∈ (readNumber t argument).1, i.IsSound tokens ∧ i ≠ .openWord := by
  unfold readNumber
  split
  · simp [Instr.IsSound, ht, hk]
  · split
    · simp [Instr.IsSound]
    · simp

/-- Reading an amount brings sound instructions and opens no word. -/
theorem readAmount_sound (ht : t ∈ tokens) (hk : t.kind = .macroName) (argument : Option Text) :
    ∀ i ∈ (readAmount t argument).1, i.IsSound tokens ∧ i ≠ .openWord := by
  cases argument with
  | none => simp [readAmount]
  | some argument => exact readNumber_sound ht hk argument

/-- Reading a number of empty lines brings sound instructions and opens no word. It may warn of the
macro, which is one of the tokens, and fail over the number. -/
theorem readSkip_sound (ht : t ∈ tokens) (hk : t.kind = .macroName) (argument : Option Text) :
    ∀ i ∈ (readSkip t argument).1, i.IsSound tokens ∧ i ≠ .openWord := by
  cases argument with
  | none => simp [readSkip]
  | some argument =>
    have h := readNumber_sound ht hk argument
    simp only [readSkip]
    split
    · exact h
    · split
      · exact h
      · intro i hi
        rcases List.mem_append.mp hi with hi | hi
        · exact h i hi
        · obtain rfl := List.mem_singleton.mp hi
          simp [Instr.IsSound, ht, hk]

/-- The instructions for the argument of a macro are sound, and none opens a word.

**Proof sketch.** By cases on what the argument is for. Faults and warnings speak of the macro that
has it, and so do scopes that are closed. -/
theorem Purpose.settle_sound {p : Purpose} (h : IsCaller tokens p t) (argument : Option Text) :
    ∀ i, i ∈ (p.settle t argument).1 ∨ i ∈ (p.settle t argument).2 →
      i.IsSound tokens ∧ i ≠ .openWord := by
  obtain ⟨ht, hk, hclose⟩ := h
  have hamount := readAmount_sound ht hk argument
  have hskip := readSkip_sound ht hk argument
  intro i hi
  cases p with
  | skip =>
    rcases hi with hi | hi
    · exact hskip i hi
    · obtain rfl := List.mem_singleton.mp hi
      simp [Instr.IsSound]
  | title =>
    rcases hi with hi | hi
    · obtain rfl := List.mem_singleton.mp hi
      simp [Instr.IsSound]
    · exact absurd hi List.not_mem_nil
  | closeMargin =>
    rcases hi with hi | hi
    · exact hamount i hi
    · simp only [settle, List.mem_cons, List.not_mem_nil, or_false] at hi
      rcases hi with rfl | rfl | rfl
      · exact ⟨⟨ht, hk, hclose rfl⟩, by simp⟩
      · simp [Instr.IsSound]
      · simp [Instr.IsSound]
  | tag | mark | indent | openMargin =>
    rcases hi with hi | hi
    · exact hamount i hi
    · simp only [settle, List.mem_cons, List.not_mem_nil, or_false] at hi
      rcases hi with rfl | rfl | rfl <;> simp [Instr.IsSound]

/-- What the argument of an escape is good for speaks of the given tokens. -/
def ArgumentUse.IsSound (tokens : List Token) : ArgumentUse → Prop
  | .font command => IsCommand tokens command
  | .ignored => True
  | .string command => IsCommand tokens command

/-- The instructions for the argument of an escape are sound and may come anywhere in a word. A
warning names the command of the escape, and anything else changes the style. -/
theorem ArgumentUse.settle_sound {u : ArgumentUse} (h : u.IsSound tokens)
    (argument : Option Text) :
    ∀ i ∈ u.settle argument, i.IsSound tokens ∧ i.isQuiet = true := by
  cases u with
  | ignored => simp [settle]
  | string command =>
    have h : IsCommand tokens command := h
    cases argument <;> simp [settle, Instr.IsSound, Instr.isQuiet, h.mem, h.kind_eq]
  | font command =>
    have h : IsCommand tokens command := h
    cases argument with
    | none => simp [settle]
    | some name =>
      simp only [settle]
      split <;> simp [Instr.IsSound, Instr.isQuiet, h.mem, h.kind_eq]

/-- The instructions for a character given by its name are sound and show a text at most. The text
is one of the table, and a name that is not there is warned of. -/
theorem characterNamed_sound (h : IsCommand tokens t) (name : Text) :
    ∀ i ∈ characterNamed t name, i.IsSound tokens ∧ (i.isQuiet = true ∨ i.isEmit = true) := by
  unfold characterNamed specialCharacter?
  split
  · rename_i text heq
    split at heq
    · obtain rfl := Option.some.inj heq
      simp [Instr.IsSound, IsShown, Instr.isQuiet, Instr.isEmit]
    · exact absurd heq (by simp)
  · simp [Instr.IsSound, Instr.isQuiet, h.mem, h.kind_eq]

end Manpage

import Manpage.Proofs.Token.Chunk
import Manpage.Token.Source

/-!
# The stages of an escape

Tokens of one escape follow each other in a fixed way: the backslash, the command, and an argument
in one of a few forms, each of which may break off at the end of its chunk. How far an escape has
been read is its stage, and a token either leads from one stage to the next or cannot come there.

The tokens of a source never come where they cannot, and a source never ends behind the opening
parenthesis or bracket of an argument.

## Main definitions

* `Manpage.Stage` — how far an escape has been read.
* `Manpage.Stage.next`, `Manpage.Stage.after` — the stage after a token, and after several.

## Main results

* `Manpage.Stage.after_place_ofChunk` — a chunk of ink leads from between two escapes to a stage
  that a blank may follow.
* `Manpage.Stage.after_ofSource` — so does a source.
-/

namespace Manpage

/-- How far an escape has been read. -/
inductive Stage where
  /-- between two escapes -/
  | between
  /-- behind the backslash -/
  | command
  /-- behind a command that takes an argument -/
  | argument
  /-- behind a command that takes the name of a character -/
  | name (bracketed : Bool)
  /-- behind the parenthesis or bracket that opens an argument -/
  | opened (bracketed : Bool)
  /-- behind a name in brackets that is not closed yet -/
  | closing
deriving DecidableEq

namespace Stage

/-- An argument has been opened and has to follow. -/
def isOpened : Stage → Bool
  | opened _ => true
  | _ => false

/-- The stage behind the command of an escape. -/
def ofEscape : Escape → Stage
  | .font | .ignored | .string => argument
  | .special bracketed => name bracketed
  | .literal _ | .comment | .unsupported => between

/-- The stage behind a name. -/
def ofName (bracketed : Bool) : Stage :=
  if bracketed then closing else between

/-- The stage after a token that belongs to no escape that has been begun. -/
def fresh (t : Token) : Option Stage :=
  match t.kind with
  | .macroName | .emptyLine => if t.startsLine then some between else none
  | .blank | .word | .quote => some between
  | .backslash => some command
  | _ => none

/-- The stage after the next part of an escape. -/
def advance (s : Stage) (t : Token) : Option Stage :=
  match s, t.kind with
  | between, _ => fresh t
  | command, .command => some (ofEscape (Escape.ofCommand t.value))
  | argument, .openParen => some (opened false)
  | argument, .openBracket => some (opened true)
  | argument, .argument => some between
  | name bracketed, .argument => some (ofName bracketed)
  | opened bracketed, .argument => some (ofName bracketed)
  | closing, .closeBracket => some between
  | _, _ => none

/-- The stage after a token, if the token can come there. A blank, and whatever starts a line, ends
an escape that may end. -/
def next (s : Stage) (t : Token) : Option Stage :=
  if t.startsLine || t.kind = .blank then if s.isOpened then none else fresh t else s.advance t

/-- The stage after several tokens. -/
def after (s : Stage) : List Token → Option Stage
  | [] => some s
  | t :: ts => (s.next t).bind fun q => q.after ts

variable {s q : Stage} {t : Token} {ts us : List Token}

/-- No tokens leave the stage as it is. -/
@[simp] theorem after_nil (s : Stage) : s.after [] = some s := rfl

/-- The stage behind two rows of tokens is that of the second row, from the stage behind the first
on. -/
theorem after_append (h : s.after ts = some q) : s.after (ts ++ us) = q.after us := by
  induction ts generalizing s with
  | nil =>
    obtain rfl : s = q := by simpa using h
    rfl
  | cons t ts ih =>
    simp only [after, Option.bind_eq_some_iff] at h
    obtain ⟨r, hr, h⟩ := h
    simp only [List.cons_append, after, hr, Option.bind_some]
    exact ih h

/-- Where a stage is reached behind two rows of tokens, one is reached between the rows. The stages
go through the first row on their way. -/
theorem exists_after_of_append (h : s.after (ts ++ us) = some q) :
    ∃ r, s.after ts = some r ∧ r.after us = some q := by
  cases hts : s.after ts with
  | some r => exact ⟨r, rfl, by rwa [after_append hts] at h⟩
  | none =>
    induction ts generalizing s with
    | nil => exact absurd hts (by simp)
    | cons t ts ih =>
      simp only [List.cons_append, after, Option.bind_eq_some_iff] at h
      obtain ⟨r, hnext, h⟩ := h
      simp only [after, hnext, Option.bind_some] at hts ⊢
      exact ih h hts

/-! ## One token -/

/-- Between two escapes every token is taken as a fresh one, whether it starts a line or not. -/
@[simp] theorem next_between (t : Token) : between.next t = fresh t := by
  simp [next, isOpened, advance]

/-- A token that starts a line or is a blank breaks an escape off: it is taken as a fresh one,
unless the escape has just opened an argument. -/
theorem next_of_ends (hs : s.isOpened = false) (ht : t.startsLine = true ∨ t.kind = .blank) :
    s.next t = fresh t := by
  simp [next, hs, ht]

/-- A token begins something new, as it does at the start of a line or where it is a blank, or it
is the next part of an escape. -/
theorem next_cases (h : s.next t = some q) :
    ((t.startsLine = true ∨ t.kind = .blank) ∧ s.isOpened = false ∧ fresh t = some q) ∨
      (t.startsLine = false ∧ t.kind ≠ .blank ∧ s.advance t = some q) := by
  unfold next at h
  split at h
  · rename_i hends
    simp only [Bool.or_eq_true, decide_eq_true_eq] at hends
    split at h
    · exact absurd h (by simp)
    · rename_i hs
      exact Or.inl ⟨hends, by simpa using hs, h⟩
  · rename_i hends
    simp only [Bool.or_eq_true, decide_eq_true_eq, not_or, Bool.not_eq_true] at hends
    exact Or.inr ⟨hends.1, hends.2, h⟩

/-- Wherever a token starts a line or is a blank, it begins something new. -/
theorem fresh_of_next (ht : t.startsLine = true ∨ t.kind = .blank) (h : s.next t = some q) :
    fresh t = some q := by
  rcases next_cases h with ⟨-, -, h⟩ | ⟨hl, hb, -⟩
  · exact h
  · rcases ht with ht | ht
    · rw [hl] at ht
      exact Bool.noConfusion ht
    · exact absurd ht hb

/-- What begins something new and starts no line is neither a macro nor an empty line. -/
theorem kind_of_fresh (ht : t.startsLine = false) (h : fresh t = some q) :
    t.kind = .blank ∨ t.kind = .word ∨ t.kind = .quote ∨ t.kind = .backslash := by
  cases hk : t.kind <;> simp_all [fresh]

/-! ## The lexemes of a chunk -/

/-- Lexemes side by side, cut in two. The second part begins in the column behind the first, and is
marked only if there is no first. -/
theorem place_append (startsLine : Bool) (line column : Int) (xs ys : List Lexeme) :
    ∃ column', Token.place startsLine line column (xs ++ ys) =
      Token.place startsLine line column xs ++
        Token.place (startsLine && xs.isEmpty) line column' ys := by
  induction xs generalizing startsLine column with
  | nil => exact ⟨column, by simp [Token.place]⟩
  | cons x xs ih =>
    obtain ⟨column', h⟩ := ih false (column + x.value.length)
    exact ⟨column', by simp [Token.place, h]⟩

/-- A name in brackets is read up to its closing bracket, or up to the end of the chunk.

**Proof sketch.** The name is always there. Without a closing bracket nothing follows it. -/
theorem after_bracketed (u : Text) (line column : Int) (hs : s = opened true ∨ s = name true) :
    ∃ q, s.after (Token.place false line column (Lexeme.bracketed u).1) = some q ∧
      q.isOpened = false ∧ (q = between ∨ (Lexeme.bracketed u).2 = []) := by
  unfold Lexeme.bracketed
  split
  · refine ⟨closing, ?_, rfl, Or.inr rfl⟩
    rcases hs with rfl | rfl
    · rfl
    · rfl
  · refine ⟨between, ?_, rfl, Or.inl rfl⟩
    rcases hs with rfl | rfl
    · rfl
    · rfl

/-- The argument of an escape is read whole, or the chunk ends. By cases on its first character, and
only a name in brackets may be unclosed. -/
theorem after_argument (u : Text) (line column : Int) :
    ∃ q, argument.after (Token.place false line column (Lexeme.argument u).1) = some q ∧
      q.isOpened = false ∧ (q = between ∨ (Lexeme.argument u).2 = []) := by
  unfold Lexeme.argument
  split
  · exact ⟨argument, rfl, rfl, Or.inr rfl⟩
  · split
    · exact ⟨between, rfl, rfl, Or.inl rfl⟩
    · split
      · exact after_bracketed _ line _ (Or.inl rfl)
      · split
        · exact ⟨between, rfl, rfl, Or.inl rfl⟩
        · exact ⟨between, rfl, rfl, Or.inl rfl⟩

/-- The name of two characters is read whole, or the chunk ends. -/
theorem after_mnemonic (u : Text) (line column : Int) :
    ∃ q, (name false).after (Token.place false line column (Lexeme.mnemonic u).1) = some q ∧
      q.isOpened = false ∧ (q = between ∨ (Lexeme.mnemonic u).2 = []) := by
  unfold Lexeme.mnemonic
  split
  · exact ⟨name false, rfl, rfl, Or.inr rfl⟩
  · exact ⟨between, rfl, rfl, Or.inl rfl⟩

/-- What follows a command is read whole, or the chunk ends. By cases on what the escape takes. -/
theorem after_afterCommand (e : Escape) (u : Text) (line column : Int) :
    ∃ q, (ofEscape e).after (Token.place false line column (Lexeme.afterCommand e u).1) = some q ∧
      q.isOpened = false ∧ (q = between ∨ (Lexeme.afterCommand e u).2 = []) := by
  unfold Lexeme.afterCommand
  split
  · exact after_argument u line column
  · exact after_argument u line column
  · exact after_argument u line column
  · exact after_bracketed u line column (Or.inr rfl)
  · exact after_mnemonic u line column
  all_goals exact ⟨between, rfl, rfl, Or.inl rfl⟩

/-- An escape is read whole, or the chunk ends. -/
theorem after_escape (u : Text) (line column : Int) :
    ∃ q, command.after (Token.place false line column (Lexeme.escape u).1) = some q ∧
      q.isOpened = false ∧ (q = between ∨ (Lexeme.escape u).2 = []) := by
  cases u with
  | nil => exact ⟨command, rfl, rfl, Or.inr rfl⟩
  | cons c u =>
    obtain ⟨q, h, hq⟩ := after_afterCommand (Escape.ofCommand [c]) u line (column + 1)
    exact ⟨q, h, hq⟩

/-- A chunk of ink leads to a stage that a blank may follow, from between two escapes, and at the
start of a line from any such stage.

**Proof sketch.** Induction along the lexemes. A quote and plain characters stay between escapes. A
backslash begins an escape, after which either the stage is between escapes again or the chunk has
ended. -/
theorem after_place_ofChunk (w : Text) (startsLine : Bool) (line column : Int)
    (hs : s.isOpened = false) (hfree : startsLine = true ∨ s = between) :
    ∃ q, s.after (Token.place startsLine line column (Lexeme.ofChunk w)) = some q ∧
      q.isOpened = false := by
  have hnext : ∀ (k : TokenKind) (v : Text),
      s.next ⟨k, v, startsLine, line, column⟩ = fresh ⟨k, v, startsLine, line, column⟩ := by
    intro k v
    rcases hfree with h | rfl
    · exact next_of_ends hs (Or.inl h)
    · exact next_between _
  induction w using Lexeme.ofChunk.induct generalizing s startsLine column with
  | case1 => exact ⟨s, by simp [Lexeme.ofChunk, Token.place], hs⟩
  | case2 c u hc ih =>
    obtain ⟨q, h, hq⟩ := ih (s := between) false (column + 1) rfl (Or.inr rfl)
      fun _ _ => next_between _
    refine ⟨q, ?_, hq⟩
    rw [Lexeme.ofChunk, if_pos hc]
    simp only [Token.place, after, hnext]
    exact h
  | case3 c u hq hc ih =>
    -- behind the backslash the escape is read, and then the rest of the chunk from between escapes
    obtain ⟨column', hplace⟩ := place_append false line (column + 1) (Lexeme.escape u).1
      (Lexeme.ofChunk (Lexeme.escape u).2)
    obtain ⟨r, hr, hopen, hrest⟩ := after_escape u line (column + 1)
    rw [Lexeme.ofChunk, if_neg hq, if_pos hc]
    simp only [List.cons_append, Token.place, after, hnext]
    show ∃ q, command.after (Token.place false line (column + 1) _) = some q ∧ _
    rw [hplace, after_append hr]
    rcases hrest with rfl | hrest
    · exact ih (s := between) _ column' rfl (Or.inr rfl) fun _ _ => next_between _
    · rw [hrest]
      exact ⟨r, by simp [Lexeme.ofChunk, Token.place], hopen⟩
  | case4 c u hq hb ih =>
    obtain ⟨q, h, hopen⟩ := ih (s := between) false
      (column + (c :: u.takeWhile Lexeme.isPlain).length) rfl (Or.inr rfl) fun _ _ => next_between _
    refine ⟨q, ?_, hopen⟩
    rw [Lexeme.ofChunk, if_neg hq, if_neg hb]
    simp only [Token.place, after, hnext]
    exact h

/-! ## Chunks and lines -/

/-- A chunk leads to a stage that a blank may follow. A blank chunk, and the first of a line, may
come at any such stage, ink only between two escapes; behind a blank chunk ink may come.

**Proof sketch.** By the sort of the chunk. A macro and a blank end whatever came before and leave
no escape open. A chunk of ink goes through the stages of its escapes, and the last of them may be
cut short but not behind its parenthesis. -/
theorem after_ofChunk (m : Text) (startsLine : Bool) (number column : Int)
    (hsort : m.isBlank = true ∨ m.isInk = true) (hs : s.isOpened = false)
    (hfree : startsLine = true ∨ s = between ∨ m.isInk = false) :
    ∃ q, s.after (Token.ofChunk m startsLine number column) = some q ∧ q.isOpened = false ∧
      (m.isInk = false → q = between) := by
  cases m with
  | nil => exact ⟨s, rfl, hs, fun h => absurd h (by decide)⟩
  | cons c u =>
    simp only [Token.ofChunk, Token.lexemes]
    split
    · rename_i hname
      rw [Bool.and_eq_true] at hname
      refine ⟨between, ?_, rfl, fun _ => rfl⟩
      simp only [Token.place, after]
      rw [next_of_ends hs (Or.inl hname.1)]
      simp [fresh, hname.1]
    · split
      · refine ⟨between, ?_, rfl, fun _ => rfl⟩
        simp only [Token.place, after]
        rw [next_of_ends hs (Or.inr rfl)]
        rfl
      · rename_i hc
        have hink : Text.isInk (c :: u) = true := by
          rcases hsort with h | h
          · simp [hc] at h
          · exact h
        have hfree' : startsLine = true ∨ s = between := by
          rcases hfree with h | h | h
          · exact Or.inl h
          · exact Or.inr h
          · exact absurd hink (by simp [h])
        obtain ⟨q, h, hq⟩ := after_place_ofChunk (c :: u) startsLine number column hs hfree'
        exact ⟨q, h, hq, fun h => absurd hink (by simp [h])⟩

/-- Chunks of which no two neighbours are ink lead to a stage that a blank may follow. By induction:
behind ink comes a blank chunk, and behind that any. -/
theorem after_chunks (number : Int) (m : Text) (ms : List Text) (startsLine : Bool) (column : Int)
    (offset : Nat) (hsort : ∀ a ∈ m :: ms, Text.isBlank a = true ∨ Text.isInk a = true)
    (hchain : (m :: ms).IsChain fun a b => Text.isInk a = true → Text.isInk b = false)
    (hs : s.isOpened = false) (hfree : startsLine = true ∨ s = between ∨ m.isInk = false) :
    ∃ q, s.after (Token.ofChunk m startsLine number column ++
        (Chunk.place offset ms).flatMap fun chunk =>
          Token.ofChunk chunk.text false number (chunk.offset + 1)) = some q ∧
      q.isOpened = false := by
  obtain ⟨q, h, hq, hblank⟩ := after_ofChunk m startsLine number column
    (hsort m List.mem_cons_self) hs hfree
  rw [after_append h]
  induction ms generalizing m s startsLine column offset q with
  | nil => exact ⟨q, rfl, hq⟩
  | cons a ms ih =>
    rw [List.isChain_cons_cons] at hchain
    have hfree' : false = true ∨ q = between ∨ Text.isInk a = false := by
      cases hm : m.isInk with
      | false => exact Or.inr (Or.inl (hblank hm))
      | true => exact Or.inr (Or.inr (hchain.1 hm))
    have hsort' : ∀ b ∈ a :: ms, Text.isBlank b = true ∨ Text.isInk b = true :=
      fun b hb => hsort b (List.mem_cons_of_mem m hb)
    obtain ⟨r, hr, hopen, hblank'⟩ := after_ofChunk a false number (offset + 1)
      (hsort' a List.mem_cons_self) hq hfree'
    simp only [Chunk.place, List.flatMap_cons]
    rw [after_append hr]
    exact ih a false _ (offset + List.length a) hsort' hchain.2 hq hfree' r hr hopen hblank'

/-- A line leads from any stage that may end to one that may. Its chunks are ink and blanks in turn,
and each leads on from where the one before it may end. -/
theorem after_ofLine (number : Nat) (line : Text) (hs : s.isOpened = false) :
    ∃ q, s.after (Token.ofLine number line) = some q ∧ q.isOpened = false := by
  unfold Token.ofLine
  split
  · exact ⟨between, by simp [after, next_of_ends hs, fresh], rfl⟩
  · have hsort : ∀ m ∈ line.splitBy sameChunk, Text.isBlank m = true ∨ Text.isInk m = true :=
      fun m hm => isBlank_or_isInk_of_isChain (List.isChain_of_mem_splitBy hm)
    have hchain := isChain_not_isInk_splitBy line
    unfold Chunk.ofLine
    cases hms : line.splitBy sameChunk with
    | nil => exact ⟨s, rfl, hs⟩
    | cons m ms =>
      rw [hms] at hsort hchain
      simp only [Chunk.place]
      split
      · exact ⟨s, rfl, hs⟩
      · exact after_chunks number m ms true _ _ hsort hchain hs (Or.inl rfl)

/-- Lines lead from any stage that may end to one that may. By induction on the lines. -/
theorem after_ofLines (number : Nat) (lines : List Text) (hs : s.isOpened = false) :
    ∃ q, s.after (Token.ofLines number lines) = some q ∧ q.isOpened = false := by
  induction lines generalizing s number with
  | nil => exact ⟨s, rfl, hs⟩
  | cons line lines ih =>
    obtain ⟨q, h, hq⟩ := after_ofLine number line hs
    simp only [Token.ofLines]
    rw [after_append h]
    exact ih (number + 1) hq

/-- The tokens of a source never come where they cannot, and the source does not end behind the
opening of an argument. -/
theorem after_ofSource (source : Text) :
    ∃ q, between.after (Token.ofSource source) = some q ∧ q.isOpened = false :=
  after_ofLines 1 source.splitLines rfl

end Stage

end Manpage

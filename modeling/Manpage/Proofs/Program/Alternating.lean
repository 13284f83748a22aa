import Manpage.Proofs.Program.Handler
import Manpage.Proofs.Program.Title
import Manpage.Proofs.Prose.Alternating

/-!
# The program of arguments in two fonts

What belongs to an alternating macro. Each argument is shown in the font whose turn it is, a word as
a unit and a quoted argument chunk by chunk; the blanks before it are shown outside of it, except
for those before the first. A space ends the line. Records apart, the macro amounts to nothing else.

## Main definitions

* `Manpage.Completion.AmountsTo` — what frames read amounts to given instructions, records apart.
* `Manpage.Alternating.Argument.instrs`, `Manpage.Alternating.instrs` — what an argument and all
  arguments of a line amount to.

## Main results

* `Manpage.Alternating.amountsTo_argument` — the tokens of an argument.
* `Manpage.Alternating.Line.amountsTo_handler` — what belongs to an alternating macro.
-/

namespace Manpage

variable {isolating : Bool} {f : Frame} {fs : List Frame} {t : Token} {ts us next : List Token}
  {es out : List Instr} {ms : List Text} {font other : Font} {first : Bool}

/-! ## Completions without their records -/

/-- What frames read amounts to given instructions, records apart, and leaves given tokens. -/
structure Completion.AmountsTo (c : Completion) (es : List Instr) (next : List Token) : Prop where
  out_eq : withoutRecords c.out = es
  rest_eq : c.rest = next

/-- A token that frames take. -/
theorem Completion.AmountsTo.take {frames : List Frame}
    (hreact : reactAll isolating fs t = .take ⟨out, frames⟩)
    (h : (complete isolating frames ts).AmountsTo es next) :
    (complete isolating fs (t :: ts)).AmountsTo (withoutRecords out ++ es) next := by
  rw [complete_cons_of_take hreact]
  exact ⟨by rw [withoutRecords_append, h.out_eq], h.rest_eq⟩

/-- A frame that is complete. -/
theorem Completion.AmountsTo.pass (hreact : ∀ t ∈ ts.head?, f.react isolating t = .pass out)
    (hend : f.atEnd = out) (h : (complete isolating fs ts).AmountsTo es next) :
    (complete isolating (f :: fs) ts).AmountsTo (withoutRecords out ++ es) next := by
  rw [complete_cons_of_pass hreact hend]
  exact ⟨by rw [withoutRecords_append, h.out_eq], h.rest_eq⟩

/-- The end of a line, where frames are complete. -/
theorem Completion.AmountsTo.nil (hreact : ∀ t ∈ next.head?, f.react isolating t = .pass out)
    (hend : f.atEnd = out) :
    (complete isolating [f] next).AmountsTo (withoutRecords out) next := by
  have hnone : (complete isolating [] next).AmountsTo [] next := by
    cases next <;> exact ⟨rfl, rfl⟩
  have hpass := Completion.AmountsTo.pass hreact hend hnone
  rwa [List.append_nil] at hpass

namespace Alternating

/-! ## Instructions -/

/-- A chunk of plain characters as it is shown. -/
def showChunk (m : Text) : Instr :=
  if m.isBlank then .blank m else .emit m

/-- Blanks as they are shown, except before the first argument. -/
def gapInstrs (first : Bool) (b : Text) : List Instr :=
  if first then [] else (b.splitBy sameChunk).map .blank

/-- The content of an argument: a unit, or chunks that are not kept together. -/
def Argument.content : Argument → List Instr
  | bare w _ _ => [.openWord, .emit w.1, .closeScope]
  | quoted t => (t.1.splitBy sameChunk).map showChunk

/-- **What an argument amounts to**, in its font. -/
def Argument.instrs (font : Font) (a : Argument) : List Instr :=
  .openStyle font :: (a.content ++ [.closeScope])

/-- What the end of the arguments amounts to. -/
def LineEnding.instrs (first : Bool) (font : Font) : LineEnding → List Instr
  | blanks b _ => gapInstrs first b ++ [.space]
  | unclosed gap t => gapInstrs first gap.1 ++ ((Argument.quoted t).instrs font ++ [.space])

/-- **What arguments amount to**: they take the two fonts by turns. -/
def instrs (first : Bool) (font other : Font) : List (Gap × Argument) → LineEnding → List Instr
  | [], ending => ending.instrs first font
  | a :: args, ending =>
    gapInstrs first a.1.1 ++ (a.2.instrs font ++ instrs false other font args ending)

/-! ## Blanks and chunks -/

/-- Blanks between arguments: they are shown one by one, or skipped where no argument stands before
them.

**Proof sketch.** By induction on the chunks of the blanks. The frame takes each of them and stays
as it is, so that what follows comes to the same frame. -/
theorem amountsTo_gap {b : Text} (hl : ∀ t ∈ us, t.startsLine = false)
    (hus : us.map Token.lexeme = gapLexemes b)
    (h : (complete isolating [.alternating first font other] ts).AmountsTo es next) :
    (complete isolating [.alternating first font other] (us ++ ts)).AmountsTo
      (gapInstrs first b ++ es) next := by
  unfold gapLexemes at hus
  unfold gapInstrs
  generalize b.splitBy sameChunk = ms at hus ⊢
  induction ms generalizing us with
  | nil =>
    obtain rfl : us = [] := List.map_eq_nil_iff.mp hus
    cases first <;> exact h
  | cons m ms ih =>
    obtain ⟨u, us, rfl, hu, hus⟩ := List.map_eq_cons_iff.mp hus
    obtain ⟨hul, hl⟩ := List.forall_mem_cons.mp hl
    obtain ⟨huk, huv⟩ := Token.kind_of_lexeme hu
    have hmore := ih hl hus
    cases first with
    | true =>
      have hreact : reactAll isolating [.alternating true font other] u =
          .take ⟨[.consume u], [.alternating true font other]⟩ := by
        simp [reactAll, Frame.react, hul, huk]
      exact hmore.take hreact
    | false =>
      have hreact : reactAll isolating [.alternating false font other] u =
          .take ⟨[.consume u, .blank m], [.alternating false font other]⟩ := by
        simp [reactAll, Frame.react, hul, huk, huv]
      exact hmore.take hreact

/-- Chunks between quotes are shown as they are, blanks as blanks and ink as a word.

**Proof sketch.** By induction on the chunks. The frame of the quoted argument takes each of them
and stays open. -/
theorem amountsTo_chunks (hl : ∀ t ∈ us, t.startsLine = false)
    (hus : us.map Token.lexeme = ms.map Lexeme.ofPlain)
    (h : (complete isolating (.quoted :: fs) ts).AmountsTo es next) :
    (complete isolating (.quoted :: fs) (us ++ ts)).AmountsTo (ms.map showChunk ++ es) next := by
  induction ms generalizing us with
  | nil =>
    obtain rfl : us = [] := List.map_eq_nil_iff.mp hus
    exact h
  | cons m ms ih =>
    obtain ⟨u, us, rfl, hu, hus⟩ := List.map_eq_cons_iff.mp hus
    obtain ⟨hul, hl⟩ := List.forall_mem_cons.mp hl
    have hreact : reactAll isolating (.quoted :: fs) u =
        .take ⟨[.consume u, showChunk m], .quoted :: fs⟩ := by
      unfold Lexeme.ofPlain at hu
      unfold showChunk
      split at hu <;> rename_i hm
      · obtain ⟨huk, huv⟩ := Token.kind_of_lexeme hu
        simp [reactAll, Frame.react, hul, huk, huv, hm, Step.word, Step.above]
      · obtain ⟨huk, huv⟩ := Token.kind_of_lexeme hu
        simp [reactAll, Frame.react, hul, huk, huv, hm, Step.word, Step.above]
    have hchunk : withoutRecords [.consume u, showChunk m] = [showChunk m] := by
      unfold showChunk
      split <;> rfl
    have hmore := (ih hl hus).take hreact
    rwa [hchunk] at hmore

/-! ## Arguments -/

/-- The first quote of an argument. -/
theorem reactAll_quote (isolating first : Bool) (font other : Font) (hl : t.startsLine = false)
    (hk : t.kind = .quote) :
    reactAll isolating [.alternating first font other] t =
      .take ⟨[.openStyle font, .consume t],
        [.quoted, .afterwards [.closeScope], .alternating false other font]⟩ := by
  simp [reactAll, Frame.react, hl, hk, Step.inFont, Step.argument, Step.above, Step.preceded]

/-- **The tokens of an argument**, before a blank or at the end of the line.

**Proof sketch.** By cases on the argument. A bare one is a single word, which the blank behind it
or the end of the line closes. A quoted one is opened by its first quote, filled by its chunks and
closed by its second quote. In either case the end of the style is left to be done, and it is done
before whatever comes next. -/
theorem amountsTo_argument (a : Argument) (hl : ∀ t ∈ us, t.startsLine = false)
    (hus : us.map Token.lexeme = a.lexemes)
    (hts : ∀ t ∈ ts.head?, t.startsLine = true ∨ t.kind = .blank)
    (h : (complete isolating [.alternating false other font] ts).AmountsTo es next) :
    (complete isolating [.alternating first font other] (us ++ ts)).AmountsTo
      (a.instrs font ++ es) next := by
  have hclosed : (complete isolating [.afterwards [.closeScope], .alternating false other font]
      ts).AmountsTo ([.closeScope] ++ es) next := h.pass (fun _ _ => rfl) rfl
  cases a with
  | bare w hne hink =>
    obtain ⟨u, rfl, hu⟩ := List.map_eq_singleton_iff.mp hus
    have hul := hl u List.mem_cons_self
    obtain ⟨huk, huv⟩ := Token.kind_of_lexeme hu
    have hunit : (complete isolating
        [.unit, .afterwards [.closeScope], .alternating false other font] ts).AmountsTo
          ([.closeScope] ++ ([.closeScope] ++ es)) next := by
      refine hclosed.pass (fun t ht => ?_) rfl
      rcases hts t ht with hstarts | hk
      · simp [Frame.react, Frame.atEnd, hstarts]
      · simp [Frame.react, Frame.atEnd, hk]
    have hreact : reactAll isolating [.alternating first font other] u =
        .take ⟨[.openStyle font, .openWord, .consume u, .emit w.1],
          [.unit, .afterwards [.closeScope], .alternating false other font]⟩ := by
      simp [reactAll, Frame.react, hul, huk, huv, Step.inFont, Step.argument, Step.unit, Step.word,
        Step.above, Step.preceded]
    exact hunit.take hreact
  | quoted t =>
    -- the quotes are consumed, and the chunks between them are shown as they are
    obtain ⟨q, us, rfl, hq, hus⟩ := List.map_eq_cons_iff.mp hus
    obtain ⟨us, zs, rfl, htext, hzs⟩ := List.map_eq_append_iff.mp hus
    obtain ⟨z, rfl, hz⟩ := List.map_eq_singleton_iff.mp hzs
    simp only [List.forall_mem_cons, List.forall_mem_append] at hl
    obtain ⟨hql, hl, hzl, -⟩ := hl
    have hzk := (Token.kind_of_lexeme hz).1
    have hend : reactAll isolating
        [.quoted, .afterwards [.closeScope], .alternating false other font] z =
          .take ⟨[.consume z], [.afterwards [.closeScope], .alternating false other font]⟩ := by
      simp [reactAll, Frame.react, hzl, hzk]
    have hall := (amountsTo_chunks hl htext (hclosed.take hend)).take
      (reactAll_quote isolating first font other hql (Token.kind_of_lexeme hq).1)
    simpa [Argument.instrs, Argument.content, withoutRecords, Instr.isRecord] using hall

/-- The end of the arguments, where a space is shown. -/
theorem amountsTo_space (hnext : ∀ t ∈ next.head?, t.startsLine = true) :
    (complete isolating [.alternating first font other] next).AmountsTo [.space] next :=
  .nil (fun t ht => by simp [Frame.react, Frame.atEnd, hnext t ht]) rfl

/-- The end of a line: blanks, or an argument whose quote is not closed, which the end of the line
closes. -/
theorem amountsTo_ending (ending : LineEnding) (hl : ∀ t ∈ us, t.startsLine = false)
    (hus : us.map Token.lexeme = ending.lexemes)
    (hnext : ∀ t ∈ next.head?, t.startsLine = true) :
    (complete isolating [.alternating first font other] (us ++ next)).AmountsTo
      (ending.instrs first font) next := by
  cases ending with
  | blanks b hb => exact amountsTo_gap hl hus (amountsTo_space hnext)
  | unclosed gap t =>
    obtain ⟨bs, us, rfl, hbs, hus⟩ := List.map_eq_append_iff.mp hus
    obtain ⟨q, us, rfl, hq, hus⟩ := List.map_eq_cons_iff.mp hus
    simp only [List.forall_mem_cons, List.forall_mem_append] at hl
    obtain ⟨hbl, hql, hl⟩ := hl
    have hclosed : (complete isolating
        [.quoted, .afterwards [.closeScope], .alternating false other font] next).AmountsTo
          [.closeScope, .space] next :=
      ((amountsTo_space hnext).pass (fun _ _ => rfl) rfl).pass
        (fun t ht => by simp [Frame.react, Frame.atEnd, hnext t ht]) rfl
    have hall := (amountsTo_chunks hl hus hclosed).take
      (reactAll_quote isolating first font other hql (Token.kind_of_lexeme hq).1)
    have hgap := amountsTo_gap hbl hbs hall
    simpa [LineEnding.instrs, Argument.instrs, Argument.content, withoutRecords, Instr.isRecord]
      using hgap

/-! ## Lines -/

/-- A blank, if anything, comes after an argument, since each further argument is behind a gap that
is not empty. -/
theorem Line.kind_of_mem_head?_lexemes (l : Line) : ∀ x ∈ l.lexemes.head?, x.kind = .blank := by
  have hmap : ∀ ms : List Text, ∀ x ∈ (ms.map (Lexeme.mk .blank)).head?, x.kind = .blank := by
    intro ms x hx
    obtain ⟨m, -, rfl⟩ := List.mem_map.mp (List.mem_of_mem_head? hx)
    rfl
  have hgap : ∀ (gap : Gap) (xs : List Lexeme), ∀ x ∈ (gapLexemes gap.1 ++ xs).head?,
      x.kind = .blank := by
    intro gap xs
    have hne : gapLexemes gap.1 ≠ [] := by
      rw [gapLexemes, Ne, List.map_eq_nil_iff, List.splitBy_eq_nil]
      exact gap.2.1
    rw [List.head?_append_of_ne_nil _ hne]
    exact hmap _
  obtain ⟨args, ending⟩ := l
  cases args with
  | cons a args =>
    have hlexemes : lexemes ⟨a :: args, ending⟩ =
        gapLexemes a.1.1 ++ (a.2.lexemes ++ lexemes ⟨args, ending⟩) := by simp [lexemes]
    rw [hlexemes]
    exact hgap a.1 _
  | nil =>
    cases ending with
    | blanks b hb => exact hmap _
    | unclosed gap t => exact hgap gap _

/-- The tokens of a line, and of those below.

**Proof sketch.** By induction on the arguments, with the two fonts changing places. A gap, an
argument and the rest of the line come one after the other; what comes after the argument is a blank
or starts a line, which is what ends the argument. -/
theorem amountsTo_line (args : List (Gap × Argument)) (ending : LineEnding)
    (hl : ∀ t ∈ us, t.startsLine = false) (hus : us.map Token.lexeme = Line.lexemes ⟨args, ending⟩)
    (hnext : ∀ t ∈ next.head?, t.startsLine = true) :
    (complete isolating [.alternating first font other] (us ++ next)).AmountsTo
      (instrs first font other args ending) next := by
  induction args generalizing us first font other with
  | nil => exact amountsTo_ending ending hl hus hnext
  | cons a args ih =>
    have hlexemes : Line.lexemes ⟨a :: args, ending⟩ =
        gapLexemes a.1.1 ++ (a.2.lexemes ++ Line.lexemes ⟨args, ending⟩) := by simp [Line.lexemes]
    rw [hlexemes] at hus
    obtain ⟨bs, us, rfl, hbs, hus⟩ := List.map_eq_append_iff.mp hus
    obtain ⟨us, ts, rfl, hus, hts⟩ := List.map_eq_append_iff.mp hus
    simp only [List.forall_mem_append] at hl
    obtain ⟨hbl, hul, hl⟩ := hl
    have hhead : ∀ t ∈ (ts ++ next).head?, t.startsLine = true ∨ t.kind = .blank := by
      intro t ht
      cases ts with
      | nil => exact Or.inl (hnext t ht)
      | cons u ts =>
        obtain rfl : u = t := by simpa using ht
        refine Or.inr (Line.kind_of_mem_head?_lexemes ⟨args, ending⟩ u.lexeme ?_)
        rw [← hts]
        rfl
    have hrest : (complete isolating [.alternating first font other]
        (us ++ (ts ++ next))).AmountsTo (a.2.instrs font ++ instrs false other font args ending)
          next := amountsTo_argument a.2 hul hus hhead (ih hl hts)
    rw [List.append_assoc, List.append_assoc]
    exact amountsTo_gap hbl hbs hrest

/-- **What belongs to an alternating macro**, records apart, is what the arguments on its line
amount to. -/
theorem Line.amountsTo_handler (l : Line) (isolating : Bool)
    (hname : Macro.ofName? t.value = some (.alternating font other))
    (hl : ∀ t ∈ us, t.startsLine = false) (hus : us.map Token.lexeme = l.lexemes)
    (hnext : ∀ t ∈ next.head?, t.startsLine = true) :
    (handler isolating t (us ++ next)).AmountsTo (instrs true font other l.arguments l.ending)
      next := by
  have hcall : Step.call isolating t = ⟨[.consume t], [.alternating true font other]⟩ := by
    simp only [Step.call, hname]
  have hline : (complete isolating [.alternating true font other] (us ++ next)).AmountsTo
      (instrs true font other l.arguments l.ending) next :=
    amountsTo_line l.arguments l.ending hl hus hnext
  rw [handler, hcall]
  exact ⟨hline.out_eq, hline.rest_eq⟩

end Alternating

end Manpage

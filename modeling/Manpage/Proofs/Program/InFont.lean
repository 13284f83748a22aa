import Manpage.Proofs.Program.Scopes

/-!
# Lines in a font

A font macro shows its arguments, or the next line, in a font. Between the instruction that selects
the font and the one that takes it back stand the instructions of text: they show texts, open and
close words of their own, record things, and select fonts where there are font escapes. No macro is
called among them, since the first token of a line that calls one completes all that is open.

## Main definitions

* `Manpage.Instr.isOfLine` — an instruction of text on a line.
* `Manpage.wordsAfter` — the number of open words after instructions.
* `Manpage.LineText` — instructions of text that lead from so many open words to so many.
* `Manpage.Frame.isOfLine` — a frame of text on a line.
* `Manpage.inFont` — the instructions of a font macro.

## Main results

* `Manpage.Frame.react_keepsLine` — what the frames of text do with a token.
* `Manpage.exists_programFrom_eq_lineText` — what comes before what is stored below them.
* `Manpage.exists_feed_eq_call` — a macro is called wherever it stands.
* `Manpage.exists_program_eq_inFont` — the program around a font macro.
-/

namespace Manpage

variable {f g : Frame} {s : Step} {t : Token} {ts before after : List Token} {i : Instr}
  {is js out store : List Instr} {fs below stack : List Frame} {isolating : Bool} {n k m : Nat}

/-! ## Instructions of text -/

/-- An instruction of text on a line. Of font escapes, those for bold and italics select a font; of
faults, only those of tokens out of order belong to text. -/
def Instr.isOfLine : Instr → Bool
  | .consume _ | .warn _ _ | .emit _ | .space | .blank _ | .endLine | .emptyLine | .openWord
  | .closeScope | .plainStyle => true
  | .setStyle font value => value && (font == .bold || font == .italic)
  | .fault cause => cause != .numberOverflow
  | _ => false

/-- The number of open words after an instruction, if it closes none that is not open. -/
def Instr.wordsAfter (n : Nat) : Instr → Option Nat
  | .openWord => some (n + 1)
  | .closeScope => if n = 0 then none else some (n - 1)
  | _ => some n

/-- The number of open words after instructions, if they close none that is not open. -/
def wordsAfter (n : Nat) : List Instr → Option Nat
  | [] => some n
  | i :: is => (i.wordsAfter n).bind fun k => wordsAfter k is

/-- Instructions of text on a line that lead from so many open words to so many. -/
structure LineText (n : Nat) (is : List Instr) (k : Nat) : Prop where
  each : ∀ i ∈ is, i.isOfLine = true
  words_eq : wordsAfter n is = some k

namespace LineText

/-- No instructions leave the number of open words as it is. -/
theorem nil (n : Nat) : LineText n [] n :=
  ⟨List.forall_mem_nil _, rfl⟩

/-- An instruction of a line, and others behind it, are instructions of a line. -/
theorem cons (hi : i.isOfLine = true) (hn : i.wordsAfter n = some m) (h : LineText m is k) :
    LineText n (i :: is) k :=
  ⟨List.forall_mem_cons.mpr ⟨hi, h.each⟩, by rw [wordsAfter, hn, Option.bind_some, h.words_eq]⟩

/-- A word is opened behind a line with one word more. -/
theorem openWord (h : LineText (n + 1) is k) : LineText n (.openWord :: is) k :=
  h.cons rfl rfl

/-- A word that is open is closed. -/
theorem closeScope (n : Nat) : LineText (n + 1) [.closeScope] n :=
  cons rfl rfl (nil n)

/-- Two rows of instructions of a line are so one behind the other. By induction on the first row.
-/
theorem append (h : LineText n is m) (h' : LineText m js k) : LineText n (is ++ js) k := by
  induction is generalizing n with
  | nil =>
    obtain rfl : n = m := Option.some.inj h.words_eq
    exact h'
  | cons i is ih =>
    obtain ⟨l, hl, hwords⟩ := Option.bind_eq_some_iff.mp h.words_eq
    obtain ⟨hi, heach⟩ := List.forall_mem_cons.mp h.each
    exact cons hi hl (ih ⟨heach, hwords⟩)

/-- The same with more words open all the time. By induction on the instructions, since none of them
asks how many words are open below. -/
theorem add (h : LineText n is k) (m : Nat) : LineText (n + m) is (k + m) := by
  induction is generalizing n with
  | nil =>
    obtain rfl : n = k := Option.some.inj h.words_eq
    exact nil (n + m)
  | cons i is ih =>
    obtain ⟨l, hl, hwords⟩ := Option.bind_eq_some_iff.mp h.words_eq
    obtain ⟨hi, heach⟩ := List.forall_mem_cons.mp h.each
    refine cons hi (m := l + m) ?_ (ih ⟨heach, hwords⟩)
    cases i with
    | openWord =>
      obtain rfl : n + 1 = l := Option.some.inj hl
      exact congrArg some (by omega)
    | closeScope =>
      simp only [Instr.wordsAfter, Option.ite_none_left_eq_some, Option.some.injEq] at hl ⊢
      omega
    | _ =>
      obtain rfl : n = l := Option.some.inj hl
      rfl

/-- Instructions of text that neither open nor close a word. The number of open words stays the same
all along. -/
theorem of_forall (n : Nat)
    (h : ∀ i ∈ is, i.isOfLine = true ∧ i ≠ .openWord ∧ i ≠ .closeScope) : LineText n is n := by
  induction is with
  | nil => exact nil n
  | cons i is ih =>
    obtain ⟨⟨hi, hopen, hclose⟩, hmore⟩ := List.forall_mem_cons.mp h
    refine cons hi ?_ (ih hmore)
    cases i with
    | openWord => exact absurd rfl hopen
    | closeScope => exact absurd rfl hclose
    | _ => rfl

/-- One such instruction. -/
theorem single (hi : i.isOfLine = true) (hopen : i ≠ .openWord) (hclose : i ≠ .closeScope) :
    LineText 0 [i] 0 :=
  of_forall 0 (List.forall_mem_singleton.mpr ⟨hi, hopen, hclose⟩)

end LineText

/-- The argument of an escape. It changes the font, or it is warned of. -/
theorem ArgumentUse.lineText_settle (u : ArgumentUse) (argument : Option Text) (n : Nat) :
    LineText n (u.settle argument) n := by
  refine LineText.of_forall n ?_
  unfold settle
  split
  · simp
  · simp [Instr.isOfLine]
  · simp
  · split <;> simp [Instr.isOfLine]

/-- A character given by its name. -/
theorem lineText_characterNamed (command : Token) (name : Text) (n : Nat) :
    LineText n (characterNamed command name) n := by
  refine LineText.of_forall n ?_
  unfold characterNamed
  split <;> simp [Instr.isOfLine]

/-! ## Frames of text -/

/-- A frame of text on a line. -/
def Frame.isOfLine : Frame → Bool
  | .line | .unit | .arguments _ | .quoted | .argumentsOrLine | .escape | .escapeArgument _
  | .openedArgument _ _ | .characterName _ _ | .closingBracket | .fontEnd => true
  | .restOfLine out => out.isEmpty
  | _ => false

/-- The number of open words in a stack of frames. -/
def openWords (fs : List Frame) : Nat :=
  fs.count .unit

/-- A frame has the words that are open above it and its own. -/
theorem openWords_cons (f : Frame) (fs : List Frame) :
    openWords (f :: fs) = openWords [f] + openWords fs := by
  rw [openWords, ← List.singleton_append, List.count_append]
  rfl

/-- Two rows of frames have the open words of the first and those of the second. -/
theorem openWords_append (fs below : List Frame) :
    openWords (fs ++ below) = openWords fs + openWords below :=
  List.count_append

/-- A step of text on a line: its frames have as many words open as its instructions leave. -/
structure Step.KeepsLine (n : Nat) (s : Step) : Prop where
  out : LineText n s.out (openWords s.frames)
  frames : ∀ f ∈ s.frames, f.isOfLine = true

namespace Step

/-- A token taken with instructions that neither open nor close a word, and frames without one. -/
theorem keepsLine_consume {frames : List Frame} (hout : LineText n out n)
    (hframes : ∀ f ∈ frames, f.isOfLine = true) (hn : openWords frames = n) :
    Step.KeepsLine n ⟨.consume t :: out, frames⟩ := by
  subst hn
  exact ⟨LineText.cons rfl rfl hout, hframes⟩

/-- A step that keeps to a line still does so above a frame of a line, with the word of that frame.
-/
theorem KeepsLine.above (h : s.KeepsLine n) (hf : f.isOfLine = true) :
    (s.above f).KeepsLine (n + openWords [f]) := by
  refine ⟨?_, List.forall_mem_append.mpr ⟨h.frames, List.forall_mem_singleton.mpr hf⟩⟩
  show LineText _ s.out (openWords (s.frames ++ [f]))
  rw [openWords_append]
  exact h.out.add (openWords [f])

/-- A token of a word. The token is shown, or it opens a frame of text, and it closes no word. -/
theorem keepsLine_word (isolating : Bool) (hk : t.kind ≠ .macroName) :
    (word isolating t).KeepsLine 0 := by
  unfold word
  split
  · rename_i hname
    exact absurd hname hk
  · exact keepsLine_consume (LineText.single rfl (by simp) (by simp)) (by simp) rfl
  · exact keepsLine_consume (LineText.nil 0) (by simp [Frame.isOfLine]) rfl
  · exact keepsLine_consume (LineText.single rfl (by simp) (by simp)) (by simp) rfl
  · exact keepsLine_consume (LineText.single rfl (by simp) (by simp)) (by simp) rfl
  · exact keepsLine_consume (LineText.single rfl (by simp) (by simp)) (by simp) rfl
  · exact keepsLine_consume (LineText.single rfl (by simp) (by simp)) (by simp) rfl
  all_goals exact ⟨LineText.cons rfl rfl (LineText.single rfl (by simp) (by simp)), by simp⟩

/-- A token other than a macro begins a unit that keeps to the line. -/
theorem keepsLine_unit (isolating : Bool) (hk : t.kind ≠ .macroName) :
    (unit isolating t).KeepsLine 0 := by
  obtain ⟨hout, hframes⟩ := (keepsLine_word isolating hk).above (f := .unit) rfl
  exact ⟨hout.openWord, hframes⟩

/-- A token other than a macro is shown or begins a unit, and keeps to the line. -/
theorem keepsLine_run (isolating : Bool) (hk : t.kind ≠ .macroName) :
    (run isolating t).KeepsLine 0 := by
  unfold run
  split
  · exact keepsLine_word isolating hk
  · exact keepsLine_unit isolating hk

/-- A token other than a macro keeps to the line where it is on a line of text. -/
theorem keepsLine_line (isolating : Bool) (hk : t.kind ≠ .macroName) :
    (line isolating t).KeepsLine 0 :=
  (keepsLine_run isolating hk).above (f := .line) rfl

/-- A token other than a macro keeps to the line where it begins an argument. -/
theorem keepsLine_argument (isolating : Bool) (hk : t.kind ≠ .macroName) :
    (argument isolating t).KeepsLine 0 := by
  unfold argument
  split
  · exact keepsLine_consume (LineText.nil 0) (by simp [Frame.isOfLine]) rfl
  · exact keepsLine_unit isolating hk

/-- A token other than a macro keeps to the line among arguments. -/
theorem keepsLine_arguments (isolating first : Bool) (hk : t.kind ≠ .macroName) :
    (arguments isolating first t).KeepsLine 0 := by
  have h : ((argument isolating t).above (.arguments false)).KeepsLine 0 :=
    (keepsLine_argument isolating hk).above (f := .arguments false) rfl
  unfold arguments
  split
  · exact h
  · exact ⟨LineText.cons rfl rfl h.out, h.frames⟩

/-- The command of an escape. -/
theorem keepsLine_command (t : Token) : (command t).KeepsLine 0 := by
  unfold command
  cases Escape.ofCommand t.value with
  | literal | unsupported =>
    exact keepsLine_consume (LineText.single rfl (by simp) (by simp)) (by simp) rfl
  | font | ignored | string | special | comment =>
    exact keepsLine_consume (LineText.nil 0) (by simp [Frame.isOfLine]) rfl

end Step

/-- What a frame of text may do with a token: it takes it in a step of text, or it passes it on and
has no word open any more. -/
def Reaction.KeepsLine (n : Nat) : Reaction → Prop
  | .take s => s.KeepsLine n
  | .pass out => LineText n out 0

/-- At the end of a line a frame of text closes the word that it has open. The frame of a unit is
the one with a word open. -/
theorem Frame.lineText_atEnd (hf : f.isOfLine = true) : LineText (openWords [f]) f.atEnd 0 := by
  cases f with
  | unit => exact LineText.closeScope 0
  | line | openedArgument | fontEnd => exact LineText.single rfl (by simp) (by simp)
  | arguments | quoted | argumentsOrLine | escape | characterName | closingBracket =>
    exact LineText.nil 0
  | escapeArgument u => exact u.lineText_settle none 0
  | restOfLine out =>
    obtain rfl : out = [] := List.isEmpty_iff.mp hf
    exact LineText.nil 0
  | _ => exact Bool.noConfusion hf

/-- A frame of text that goes on has no word open, and neither has the one that is left. The frame
of a unit is none that goes on. -/
theorem Frame.GoesOn.isOfLine (h : f.GoesOn t g) (hf : f.isOfLine = true) :
    g.isOfLine = true ∧ openWords [f] = 0 ∧ openWords [g] = 0 := by
  cases h with
  | skip f h =>
    have hf' : openWords [f] = 0 := by
      cases f with
      | unit => exact Bool.noConfusion h
      | _ => rfl
    exact ⟨hf, hf', hf'⟩
  | rest | opened => exact ⟨hf, rfl, rfl⟩
  | _ => exact Bool.noConfusion hf

/-- **What the frames of text do with a token.** They take it as text, or they are complete.

**Proof sketch.** By cases on the outcome. A macro that is placed starts its line, so it comes to no
frame of text that takes it. -/
theorem Frame.react_keepsLine (isolating : Bool) (hf : f.isOfLine = true) (ht : t.IsPlaced) :
    (f.react isolating t).KeepsLine (openWords [f]) := by
  have hkind : t.startsLine = false → t.kind ≠ .macroName := fun hl hk =>
    Bool.noConfusion (hl.symm.trans (ht.startsLine_of_macroName hk))
  have hnone : LineText 0 [] 0 := LineText.nil 0
  have hclosing : ∀ bracketed : Bool,
      ∀ g ∈ (if bracketed then [closingBracket] else []), g.isOfLine = true :=
    forall_mem_closing rfl
  have hnowords : ∀ bracketed : Bool,
      openWords (if bracketed then [closingBracket] else []) = 0 := by decide
  have hout := f.outcome_react isolating t
  generalize f.react isolating t = r at hout ⊢
  cases hout with
  | complete => exact lineText_atEnd hf
  | missing => exact LineText.single rfl (by simp) (by simp)
  | fontEnd => exact hnone
  | goesOn f g _ h =>
    obtain ⟨hg, hopen, hopen'⟩ := h.isOfLine hf
    rw [hopen]
    exact Step.keepsLine_consume hnone (List.forall_mem_singleton.mpr hg) hopen'
  | close f h =>
    have hopen : openWords [f] = 0 := by rcases h with ⟨rfl, -⟩ | ⟨rfl, -⟩ <;> rfl
    rw [hopen]
    exact Step.keepsLine_consume hnone (List.forall_mem_nil _) rfl
  | line f h hk =>
    have hopen : openWords [f] = 0 := by rcases h with rfl | rfl | rfl <;> rfl
    rw [hopen]
    exact Step.keepsLine_line isolating (hk.elim hkind id)
  | word f h hl =>
    -- the new word is opened above those that the frame holds open
    have hword := (Step.keepsLine_word isolating (hkind hl)).above hf
    rwa [Nat.zero_add] at hword
  | arguments f first h hl =>
    have hopen : openWords [f] = 0 := by rcases h with rfl | ⟨rfl, -⟩ <;> rfl
    rw [hopen]
    exact Step.keepsLine_arguments isolating first (hkind hl)
  | command => exact Step.keepsLine_command t
  | argument f u bracketed h =>
    have hopen : openWords [f] = 0 := by rcases h with ⟨rfl, -⟩ | rfl <;> rfl
    rw [hopen]
    exact Step.keepsLine_consume (u.lineText_settle _ 0) (hclosing bracketed)
      (hnowords bracketed)
  | character command bracketed =>
    exact Step.keepsLine_consume (lineText_characterNamed _ _ 0) (hclosing bracketed)
      (hnowords bracketed)
  | _ => exact Bool.noConfusion hf

/-! ## Stacks of frames of text -/

/-- Frames of text take a token as text, or they are complete, and whatever lies below comes next.

**Proof sketch.** By induction on the frames. The first of them takes the token, and the words of
the others stay open; or it is complete and closes its words, and the next one is asked. -/
theorem feed_keepsLine (isolating : Bool) (hfs : ∀ f ∈ fs, f.isOfLine = true) (ht : t.IsPlaced) :
    (∃ s : Step, s.KeepsLine (openWords fs) ∧
        ∀ below, feed isolating (fs ++ below) t = ⟨s.out, s.frames ++ below⟩) ∨
      ∃ out, LineText (openWords fs) out 0 ∧ ∀ below, feed isolating (fs ++ below) t =
        ⟨out ++ (feed isolating below t).out, (feed isolating below t).frames⟩ := by
  induction fs with
  | nil => exact Or.inr ⟨[], LineText.nil 0, fun _ => rfl⟩
  | cons f fs ih =>
    obtain ⟨hf, hfs⟩ := List.forall_mem_cons.mp hfs
    have hreact := Frame.react_keepsLine isolating hf ht
    rw [openWords_cons]
    cases hr : f.react isolating t with
    | take s =>
      rw [hr] at hreact
      have hs : s.KeepsLine (openWords [f]) := hreact
      refine Or.inl ⟨⟨s.out, s.frames ++ fs⟩, ⟨?_, ?_⟩, fun below => ?_⟩
      · show LineText _ s.out (openWords (s.frames ++ fs))
        rw [openWords_append]
        exact hs.out.add (openWords fs)
      · exact List.forall_mem_append.mpr ⟨hs.frames, hfs⟩
      · simp only [List.cons_append, feed, hr, List.append_assoc]
    | pass out =>
      rw [hr] at hreact
      have hout : LineText (openWords [f] + openWords fs) out (0 + openWords fs) :=
        LineText.add hreact (openWords fs)
      rw [Nat.zero_add] at hout
      rcases ih hfs with ⟨s, hs, hfeed⟩ | ⟨more, hmore, hfeed⟩
      · refine Or.inl ⟨⟨out ++ s.out, s.frames⟩, ⟨hout.append hs.out, hs.frames⟩, fun below => ?_⟩
        simp only [List.cons_append, feed, hr, hfeed]
      · refine Or.inr ⟨out ++ more, hout.append hmore, fun below => ?_⟩
        simp only [List.cons_append, feed, hr, hfeed, List.append_assoc]

/-- At the end of the tokens the frames of text close all words that they have open. By induction on
the stack, each frame closing its own word above those of the frames below. -/
theorem lineText_finish (hfs : ∀ f ∈ fs, f.isOfLine = true) :
    LineText (openWords fs) (finish fs) 0 := by
  induction fs with
  | nil => exact LineText.nil 0
  | cons f fs ih =>
    obtain ⟨hf, hfs⟩ := List.forall_mem_cons.mp hfs
    have hout := (Frame.lineText_atEnd hf).add (openWords fs)
    rw [Nat.zero_add, ← openWords_cons] at hout
    exact hout.append (ih hfs)

/-- **What comes before what is stored below frames of text** are instructions of text that close
every word they open.

**Proof sketch.** Induction on the tokens. Each is taken as text, or it completes the frames and
brings what is stored. At the end of the tokens the frames are completed too. -/
theorem exists_programFrom_eq_lineText (isolating : Bool) (hfs : ∀ f ∈ fs, f.isOfLine = true)
    (store : List Instr) (below : List Frame) (hts : ∀ t ∈ ts, t.IsPlaced) :
    ∃ content later, LineText (openWords fs) content 0 ∧
      programFrom isolating (fs ++ .afterwards store :: below) ts =
        content ++ (store ++ later) := by
  induction ts generalizing fs with
  | nil =>
    refine ⟨finish fs, finish below, lineText_finish hfs, ?_⟩
    rw [programFrom, finish_append]
    rfl
  | cons t ts ih =>
    obtain ⟨ht, hts⟩ := List.forall_mem_cons.mp hts
    rcases feed_keepsLine isolating hfs ht with ⟨s, hs, hfeed⟩ | ⟨out, hout, hfeed⟩
    · obtain ⟨content, later, hcontent, hprogram⟩ := ih hs.frames hts
      refine ⟨s.out ++ content, later, hs.out.append hcontent, ?_⟩
      rw [programFrom, hfeed, hprogram, List.append_assoc]
    · refine ⟨out, (feed isolating below t).out ++
        programFrom isolating (feed isolating below t).frames ts, hout, ?_⟩
      rw [programFrom, hfeed]
      simp only [feed, Frame.react, List.append_assoc]

/-! ## Calls of macros -/

/-- **A macro is called wherever it stands**: it completes all that is open, or all down to a frame
that waits for a tag.

**Proof sketch.** By induction on the stack: a tag calls the macro itself, and the other frames pass
it on. -/
theorem exists_feed_eq_call (isolating : Bool) (stack : List Frame) (ht : t.IsPlaced)
    (hk : t.kind = .macroName) :
    ∃ out below, feed isolating stack t =
      ⟨out ++ (Step.call isolating t).out, (Step.call isolating t).frames ++ below⟩ := by
  have hP : IsSortOfStored fun _ => false := fun _ _ _ => rfl
  have hfree : ∀ f : Frame, f.IsFreeOf fun _ => false := by
    intro f
    cases f <;> simp [Frame.IsFreeOf, NoneOf]
  induction stack with
  | nil =>
    refine ⟨if t.startsLine then [.beginLine] else [], [], ?_⟩
    simp only [feed, Step.top, hk, List.append_nil]
    split <;> rfl
  | cons f stack ih =>
    by_cases hf : f = .tag
    · subst hf
      exact ⟨[], stack, by simp only [feed, Frame.react, hk, List.nil_append]⟩
    · obtain ⟨out, hreact, -⟩ := Frame.react_macroName isolating hP (hfree f) ht hk hf
      obtain ⟨more, below, hfeed⟩ := ih
      exact ⟨out ++ more, below, by simp only [feed, hreact, hfeed, List.append_assoc]⟩

/-- The instructions of a font macro, with those of its arguments or its line. -/
def inFont (t : Token) (font : Font) (content : List Instr) : List Instr :=
  .consume t :: .setStyle font true :: content ++ [.setStyle font false, .space]

/-- **The program around a font macro.** Wherever a font macro stands in a source, also as the tag
of a paragraph, the program has its instructions there, around those of its arguments or its
line. -/
theorem exists_program_eq_inFont (isolating : Bool) {font : Font}
    (hcalled : t.called? = some (.inFont font))
    (hts : ∀ u ∈ before ++ t :: after, u.IsPlaced) :
    ∃ earlier content later, LineText 0 content 0 ∧
      program isolating (before ++ t :: after) = earlier ++ (inFont t font content ++ later) := by
  have hk := Token.kind_of_called? hcalled
  have hname : Macro.ofName? t.value = some (.inFont font) :=
    (Token.called?_of_kind hk).symm.trans hcalled
  obtain ⟨-, ht, hafter⟩ := List.forall_mem_append.mp hts |>.imp_right List.forall_mem_cons.mp
  obtain ⟨out, below, hfeed⟩ :=
    exists_feed_eq_call isolating (feedAll isolating [] before).frames ht hk
  have hcall : Step.call isolating t = ⟨[.consume t, .setStyle font true],
      [.argumentsOrLine, .afterwards [.setStyle font false, .space]]⟩ := by
    simp only [Step.call, hname]
  have hframes : ∀ f ∈ [Frame.argumentsOrLine], f.isOfLine = true := by simp [Frame.isOfLine]
  obtain ⟨content, later, hcontent, hprogram⟩ := exists_programFrom_eq_lineText isolating hframes
    [.setStyle font false, .space] below hafter
  refine ⟨(feedAll isolating [] before).out ++ out, content, later, hcontent, ?_⟩
  rw [hcall] at hfeed
  rw [program, programFrom_append, programFrom, hfeed]
  simp only [List.cons_append, List.nil_append] at hprogram ⊢
  rw [hprogram, inFont]
  simp only [List.append_assoc, List.cons_append, List.nil_append]

end Manpage

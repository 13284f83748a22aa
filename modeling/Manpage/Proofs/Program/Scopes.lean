import Manpage.Proofs.Program.Text

/-!
# Margin scopes line by line

The instructions that count for margin scopes come from the lines of a source one by one. What a
line contributes does not depend on the lines before it, and a line of text contributes nothing,
also where it is the tag of a paragraph or the title of a section.

## Main definitions

* `Manpage.counted` — the instructions of tokens that count for margin scopes.
* `Manpage.Orderly` — a stack in which nothing but stored instructions lies below a frame that may
  take the next line.

## Main results

* `Manpage.counted_append` — lines contribute independently of what precedes them.
* `Manpage.counted_cons_text`, `Manpage.counted_cons_line` — one token of text, and one macro with
  its line.
-/

namespace Manpage

variable {P : Instr → Bool} {f : Frame} {fs below rest : List Frame} {t caller : Token}
  {ts us : List Token} {isolating : Bool}

/-! ## Stored instructions at the bottom of a stack -/

/-- A frame with instructions for whatever comes next. -/
def Frame.IsAfterwards (f : Frame) : Prop :=
  ∃ out, f = .afterwards out

/-- The end of the tokens brings what the frames above have in store, and then those below. -/
theorem finish_append (fs rest : List Frame) : finish (fs ++ rest) = finish fs ++ finish rest :=
  List.flatMap_append

/-- Stored instructions come as soon as something reaches them. By induction on the stack, since
such frames let everything go. -/
theorem feed_afterwards (hrest : ∀ f ∈ rest, f.IsAfterwards) (t : Token) :
    feed isolating rest t =
      ⟨finish rest ++ (Step.top isolating t).out, (Step.top isolating t).frames⟩ := by
  induction rest with
  | nil => rfl
  | cons f rest ih =>
    obtain ⟨out, rfl⟩ := hrest f List.mem_cons_self
    rw [feed, Frame.react, ih fun g hg => hrest g (List.mem_cons_of_mem _ hg)]
    simp [finish, Frame.atEnd]

/-- Where no stored instruction is of the sort, they make no difference to what tokens bring of it.

**Proof sketch.** The frames above take the same tokens with the same instructions. The first token
that they pass on starts afresh in both cases. -/
theorem filter_programFrom_afterwards (isolating : Bool) (hrest : ∀ f ∈ rest, f.IsAfterwards)
    (hfree : NoneOf P (finish rest)) (fs : List Frame) (ts : List Token) :
    (programFrom isolating (fs ++ rest) ts).filter P = (programFrom isolating fs ts).filter P := by
  induction ts generalizing fs with
  | nil => simp only [programFrom, finish_append, List.filter_append, hfree.filter_eq,
      List.append_nil]
  | cons t ts ih =>
    simp only [programFrom]
    rcases feed_cases isolating fs t with ⟨s, hfeed⟩ | ⟨out, hfeed⟩
    · have hfs := hfeed []
      rw [List.append_nil, List.append_nil] at hfs
      rw [hfeed rest, hfs, List.filter_append, List.filter_append, ih s.frames]
    · have hfs := hfeed []
      rw [List.append_nil] at hfs
      rw [hfeed rest, hfs, feed_afterwards hrest]
      simp only [List.filter_append, hfree.filter_eq, List.nil_append]
      rfl

/-! ## Text above stored instructions -/

/-- A macro that comes to a stack which does not wait for a tag reaches its bottom. By induction on
the stack: a textual frame lets the macro go and sends out nothing of the sort. -/
theorem feed_macroName (isolating : Bool) (hP : IsSortOfStored P) (hfs : IsTextual P fs)
    (ht : t.IsPlaced) (hk : t.kind = .macroName) :
    ∃ out, NoneOf P out ∧ ∀ rest, feed isolating (fs ++ rest) t =
      ⟨out ++ (feed isolating rest t).out, (feed isolating rest t).frames⟩ := by
  induction fs with
  | nil => exact ⟨[], by simp [NoneOf], fun _ => rfl⟩
  | cons f fs ih =>
    obtain ⟨hfree, hne⟩ := hfs f List.mem_cons_self
    obtain ⟨more, hmore, hfeed⟩ := ih fun g hg => hfs g (List.mem_cons_of_mem f hg)
    obtain ⟨out, hreact, hout⟩ := Frame.react_macroName isolating hP hfree ht hk hne
    refine ⟨out ++ more, hout.append hmore, fun rest => ?_⟩
    simp only [List.cons_append, feed, hreact, hfeed, List.append_assoc]

/-- Text that is read above stored instructions brings these, and then nothing but what the tokens
bring by themselves.

**Proof sketch.** By induction on the tokens. As long as the frames above take them, the tokens
bring what they bring to the empty stack, which is nothing that counts. Once a token is passed on,
the stored instructions come, and nothing is left of the stack. -/
theorem filter_programFrom_textual (isolating : Bool) (hP : IsSortOfCounted P)
    (hfs : IsTextual P fs) (hrest : ∀ f ∈ rest, f.IsAfterwards) (hts : ∀ t ∈ ts, t.IsPlaced) :
    (programFrom isolating (fs ++ rest) ts).filter P =
      (finish rest).filter P ++ (program isolating ts).filter P := by
  have hnil : IsTextual P [] := by simp [IsTextual]
  induction ts generalizing fs rest with
  | nil =>
    simp only [programFrom, program, finish_append, List.filter_append,
      (finish_free hP.stored hfs).filter_eq, List.nil_append]
    exact (List.append_nil _).symm
  | cons t ts ih =>
    have ht := hts t List.mem_cons_self
    have hts' : ∀ u ∈ ts, u.IsPlaced := fun u hu => hts u (List.mem_cons_of_mem t hu)
    -- where the frames above pass the token on, the rest is read as it would be by itself
    have hpass : ∀ out, NoneOf P out → (feed isolating (fs ++ rest) t =
          ⟨out ++ (feed isolating rest t).out, (feed isolating rest t).frames⟩) →
        (programFrom isolating (fs ++ rest) (t :: ts)).filter P =
          (finish rest).filter P ++ (program isolating (t :: ts)).filter P := by
      intro out hout hfeed
      simp only [program, programFrom, hfeed, feed_afterwards hrest, List.filter_append,
        hout.filter_eq, List.nil_append, List.append_assoc]
      rfl
    by_cases hk : t.kind = .macroName
    · obtain ⟨out, hout, hfeed⟩ := feed_macroName isolating hP.stored hfs ht hk
      exact hpass out hout (hfeed rest)
    · obtain ⟨hout, hframes⟩ := feed_textual isolating hP hfs hk
      rcases feed_cases isolating fs t with ⟨s, hfeed⟩ | ⟨out, hfeed⟩
      · have hs := hfeed []
        rw [List.append_nil, List.append_nil] at hs
        rw [hs] at hout hframes
        obtain ⟨htop, htopframes⟩ := feed_textual isolating hP hnil hk
        have halone : (programFrom isolating ((feed isolating [] t).frames ++ []) ts).filter P =
            (finish []).filter P ++ (program isolating ts).filter P :=
          ih htopframes (by simp) hts'
        rw [List.append_nil] at halone
        have hout : NoneOf P s.out := hout
        simp only [program, programFrom, hfeed rest, List.filter_append, hout.filter_eq,
          htop.filter_eq, List.nil_append, ih hframes hrest hts', halone]
        rfl
      · have hs := hfeed []
        rw [List.append_nil] at hs
        rw [hs] at hout
        exact hpass out (fun i hi => hout i (List.mem_append_left _ hi)) (hfeed rest)

/-- The same without stored instructions: text brings what the tokens bring by themselves. -/
theorem filter_programFrom_of_textual (isolating : Bool) (hP : IsSortOfCounted P)
    (hfs : IsTextual P fs) (hts : ∀ t ∈ ts, t.IsPlaced) :
    (programFrom isolating fs ts).filter P = (program isolating ts).filter P := by
  have h := filter_programFrom_textual isolating hP hfs (List.forall_mem_nil _) hts
  rwa [List.append_nil] at h

/-! ## Orderly stacks -/

/-- Below a frame that may take the next line lie stored instructions only, and below a tag none
that count. -/
def Orderly : List Frame → Prop
  | [] => True
  | f :: below =>
    (f.mayTakeLine = true → ∀ g ∈ below, g.IsAfterwards) ∧
      (f = .tag → NoneOf Instr.isCounted (finish below)) ∧ Orderly below

/-- Frames that pass the start of a line on may stand above an orderly stack. What is asked of a
frame is asked only of those that may take a line, and a tag may. -/
theorem Orderly.append_of_passes (h : Orderly below) (hfs : ∀ f ∈ fs, f.mayTakeLine = false) :
    Orderly (fs ++ below) := by
  induction fs with
  | nil => exact h
  | cons f fs ih =>
    have hf := hfs f List.mem_cons_self
    refine ⟨fun htakes => ?_, ?_, ih fun g hg => hfs g (List.mem_cons_of_mem f hg)⟩
    · rw [hf] at htakes
      exact Bool.noConfusion htakes
    · rintro rfl
      exact Bool.noConfusion hf

/-- Stored instructions at the bottom of a stack are orderly. -/
theorem orderly_afterwards (hrest : ∀ f ∈ rest, f.IsAfterwards) : Orderly rest := by
  rw [← List.append_nil rest]
  refine Orderly.append_of_passes trivial fun f hf => ?_
  obtain ⟨out, rfl⟩ := hrest f hf
  rfl

/-- The call of a macro above stored instructions that do not count.

**Proof sketch.** By the macros. Below a frame that may take the next line there are only stored
instructions; those below a tag are the end of its style, which does not count. -/
theorem orderly_call (hrest : ∀ f ∈ rest, f.IsAfterwards)
    (hfree : NoneOf Instr.isCounted (finish rest)) (t : Token) :
    Orderly ((Step.call isolating t).frames ++ rest) := by
  have horderly := orderly_afterwards hrest
  have hcons : ∀ out, ∀ g ∈ Frame.afterwards out :: rest, g.IsAfterwards := by
    intro out g hg
    rcases List.mem_cons.mp hg with rfl | hg
    · exact ⟨out, rfl⟩
    · exact hrest g hg
  have hclose : NoneOf Instr.isCounted (finish (.afterwards [.closeScope] :: rest)) :=
    NoneOf.append (by simp [NoneOf, Frame.atEnd, Instr.isCounted, Instr.isMargin]) hfree
  unfold Step.call
  split
  case h_2 =>
    split
    · exact ⟨fun _ => hrest, by simp, horderly⟩
    · exact ⟨fun _ => hcons _, by simp, orderly_afterwards (hcons _)⟩
  case h_3 | h_12 => exact ⟨fun _ => hcons _, by simp, orderly_afterwards (hcons _)⟩
  case h_8 =>
    exact ⟨by simp [Frame.mayTakeLine], by simp, fun _ => hcons _, fun _ => hclose,
      orderly_afterwards (hcons _)⟩
  all_goals exact horderly.append_of_passes (by simp [Frame.mayTakeLine])

/-- A stack stays orderly, whatever token comes.

**Proof sketch.** By induction on the stack. Text leaves frames that pass lines on, or the frame as
it was; a macro comes to a tag or to the bottom of the stack, where it leaves an orderly one. -/
theorem feed_orderly (h : Orderly fs) (ht : t.IsPlaced) :
    Orderly (feed isolating fs t).frames := by
  have hP : IsSortOfStored fun _ => false := fun _ _ _ => rfl
  have hfree : ∀ f : Frame, f.IsFreeOf fun _ => false := by
    intro f
    cases f <;> simp [Frame.IsFreeOf, NoneOf]
  induction fs with
  | nil =>
    by_cases hk : t.kind = .macroName
    · -- at the top a macro is called, and its frames are the only ones
      have htop : (Step.top isolating t).frames = (Step.call isolating t).frames := by
        simp only [Step.top, hk]
        split <;> rfl
      show Orderly (Step.top isolating t).frames
      rw [htop, ← List.append_nil (Step.call isolating t).frames]
      exact orderly_call (by simp) (by simp [NoneOf, finish]) t
    · have htop : (Step.top isolating t).IsPlain fun _ => false := Step.top_plain hP hk
      rw [← List.append_nil (feed isolating [] t).frames]
      exact h.append_of_passes fun f hf => (htop.frames f hf).passes
  | cons f below ih =>
    obtain ⟨htakes, htag, hbelow⟩ := h
    by_cases hk : t.kind = .macroName
    · by_cases hf : f = .tag
      · subst hf
        have hframes : (feed isolating (.tag :: below) t).frames =
            (Step.call isolating t).frames ++ below := by
          simp only [feed, Frame.react, hk]
        rw [hframes]
        exact orderly_call (htakes rfl) (htag rfl) t
      · obtain ⟨out, hreact, -⟩ := Frame.react_macroName isolating hP (hfree f) ht hk hf
        simp only [feed, hreact]
        exact ih hbelow
    · have hreact := Frame.react_text isolating hP (hfree f) hk
      simp only [feed]
      cases hr : f.react isolating t with
      | take s =>
        rw [hr] at hreact
        rcases hreact with hs | ⟨-, hframes⟩
        · exact hbelow.append_of_passes fun g hg => (hs.frames g hg).passes
        · show Orderly (s.frames ++ below)
          rw [hframes]
          exact ⟨htakes, htag, hbelow⟩
      | pass out => exact ih hbelow

/-- Placed tokens leave an orderly stack orderly. -/
theorem feedAll_orderly (h : Orderly fs) (hts : ∀ t ∈ ts, t.IsPlaced) :
    Orderly (feedAll isolating fs ts).frames := by
  induction ts generalizing fs with
  | nil => exact h
  | cons t ts ih =>
    exact ih (feed_orderly h (hts t List.mem_cons_self)) fun u hu =>
      hts u (List.mem_cons_of_mem t hu)

/-! ## The start of a line -/

/-- The instructions of tokens that count for margin scopes. -/
def counted (isolating : Bool) (ts : List Token) : List Instr :=
  (program isolating ts).filter Instr.isCounted

/-- Text contributes nothing. -/
theorem counted_cons_text (hk : t.kind ≠ .macroName) (hts : ∀ u ∈ ts, u.IsPlaced) :
    counted isolating (t :: ts) = counted isolating ts := by
  have hP := isSortOfCounted_isCounted
  have htop : (Step.top isolating t).IsPlain Instr.isCounted := Step.top_plain hP.stored hk
  have halone := filter_programFrom_of_textual isolating hP htop.isTextual hts
  simp only [counted, program, programFrom, feed, List.filter_append,
    (htop.free.noneOf hP).filter_eq, List.nil_append, halone]

/-- A frame that waits for a line has nothing to contribute at the end. A tag and arguments store
nothing, and a title that is missing changes no margin. -/
theorem Frame.atEnd_of_mayTakeLine (hf : f.mayTakeLine = true) :
    NoneOf Instr.isCounted f.atEnd := by
  cases f with
  | tag | argumentsOrLine => simp [atEnd, NoneOf]
  | argument p caller =>
    cases p with
    | title => simp [atEnd, NoneOf, Purpose.settle, Instr.isCounted, Instr.isMargin]
    | _ => exact Bool.noConfusion hf
  | _ => exact Bool.noConfusion hf

/-- A line that is taken by a frame which waits for it: it contributes what it would by itself. -/
theorem filter_programFrom_taken (isolating : Bool) {s : Step} (hs : s.IsPlain Instr.isCounted)
    (hbelow : ∀ g ∈ below, g.IsAfterwards) (hk : t.kind ≠ .macroName)
    (hts : ∀ u ∈ ts, u.IsPlaced) :
    (s.out ++ programFrom isolating (s.frames ++ below) ts).filter Instr.isCounted =
      (finish below).filter Instr.isCounted ++ counted isolating (t :: ts) := by
  have hP := isSortOfCounted_isCounted
  rw [List.filter_append, (hs.free.noneOf hP).filter_eq, List.nil_append, counted_cons_text hk hts]
  exact filter_programFrom_textual isolating hP hs.isTextual hbelow hts

/-- A frame that passes a token on with what it would do at the end, above a stack which does what
it would at the end. -/
theorem filter_programFrom_of_pass {out is : List Instr} (hreact : f.react isolating t = .pass out)
    (hout : out.filter P = f.atEnd.filter P)
    (hbelow : (programFrom isolating below (t :: ts)).filter P = (finish below).filter P ++ is) :
    (programFrom isolating (f :: below) (t :: ts)).filter P =
      (finish (f :: below)).filter P ++ is := by
  simp only [programFrom, List.filter_append] at hbelow
  simp only [programFrom, feed, hreact, List.filter_append, List.append_assoc, hbelow, hout]
  simp only [finish, List.flatMap_cons, List.filter_append, List.append_assoc]

/-- At the start of a line an orderly stack contributes what it would at the end, and the tokens
contribute what they would by themselves.

**Proof sketch.** Induction on the stack. A frame passes the token on with what it would do at the
end. A frame that takes it instead has nothing to contribute, and neither has the token unless it is
a macro, which only a tag takes, above stored instructions that do not count. -/
theorem filter_programFrom_startsLine (h : Orderly fs) (ht : t.IsPlaced)
    (hl : t.startsLine = true) (hts : ∀ u ∈ ts, u.IsPlaced) :
    (programFrom isolating fs (t :: ts)).filter Instr.isCounted =
      (finish fs).filter Instr.isCounted ++ counted isolating (t :: ts) := by
  have hP := isSortOfCounted_isCounted.stored
  induction fs with
  | nil => rfl
  | cons f below ih =>
    obtain ⟨htakes, htag, hbelow⟩ := h
    by_cases hpasses : f.mayTakeLine = false ∨ (t.kind = .macroName ∧ f ≠ .tag) ∨
        t.kind = .emptyLine
    · obtain ⟨out, hreact, hout⟩ := Frame.react_of_startsLine (P := Instr.isCounted) isolating
        (fun _ => rfl) ht hl hpasses
      exact filter_programFrom_of_pass hreact hout (ih hbelow)
    · simp only [not_or, not_and, not_not, Bool.not_eq_false] at hpasses
      obtain ⟨hmay, hcalled, hempty⟩ := hpasses
      by_cases hk : t.kind = .macroName
      · -- the tag is a macro
        obtain rfl := hcalled hk
        have hcalls := filter_programFrom_afterwards isolating (htakes hmay)
          (htag rfl) (Step.call isolating t).frames ts
        have htop : (Step.top isolating t).out.filter Instr.isCounted =
              (Step.call isolating t).out.filter Instr.isCounted ∧
            (Step.top isolating t).frames = (Step.call isolating t).frames := by
          simp only [Step.top, hk, hl, if_true]
          exact ⟨rfl, rfl⟩
        have hend : (finish (.tag :: below)).filter Instr.isCounted = [] := (htag rfl).filter_eq
        rw [hend, List.nil_append]
        simp only [counted, program, programFrom, feed, Frame.react, hk, List.filter_append, hcalls,
          htop.1, htop.2]
      · -- the frame takes the line as text or as a title
        obtain ⟨s, hreact, hs⟩ : ∃ s : Step, f.react isolating t = .take s ∧
            s.IsPlain Instr.isCounted := by
          rcases Frame.react_of_mayTakeLine isolating hmay hl hk hempty with hreact | hreact
          · exact ⟨_, hreact, Step.line_plain hP hk⟩
          · have htitle : (Frame.titleLine t.value).IsPlain Instr.isCounted := ⟨trivial, rfl⟩
            exact ⟨_, hreact, Step.takesFreely_isPlain hP t (List.forall_mem_nil _)
              (List.forall_mem_singleton.mpr htitle)⟩
        have hline := filter_programFrom_taken isolating hs (htakes hmay) hk hts
        have hend := (Frame.atEnd_of_mayTakeLine hmay).filter_eq
        simp only [programFrom, feed, hreact, finish, List.flatMap_cons, List.filter_append, hend,
          List.nil_append] at hline ⊢
        exact hline

/-- **Lines contribute independently.** What precedes the start of a line makes no difference to
what the tokens from there on contribute. -/
theorem counted_append (hts : ∀ u ∈ ts, u.IsPlaced) (ht : t.IsPlaced) (hl : t.startsLine = true)
    (hus : ∀ u ∈ us, u.IsPlaced) :
    counted isolating (ts ++ t :: us) = counted isolating ts ++ counted isolating (t :: us) := by
  have horderly : Orderly (feedAll isolating [] ts).frames := feedAll_orderly trivial hts
  rw [counted, program, programFrom_append, List.filter_append,
    filter_programFrom_startsLine horderly ht hl hus, ← List.append_assoc, ← List.filter_append,
    ← programFrom_eq]
  rfl

/-! ## One token and its line -/

/-- The rest of a line counts for nothing, so that what counts comes from the lines behind it. By
induction on the rest, where no token names a macro. -/
theorem counted_restOfLine_append (isolating : Bool) (hline : ∀ u ∈ ts, u.startsLine = false)
    (hts : ∀ u ∈ ts ++ us, u.IsPlaced) :
    counted isolating (ts ++ us) = counted isolating us := by
  induction ts with
  | nil => rfl
  | cons t ts ih =>
    have hk : t.kind ≠ .macroName := by
      intro hk
      have hl := (hts t List.mem_cons_self).startsLine_of_macroName hk
      rw [hline t List.mem_cons_self] at hl
      exact Bool.noConfusion hl
    have hts' : ∀ u ∈ ts ++ us, u.IsPlaced := fun u hu => hts u (List.mem_cons_of_mem t hu)
    rw [List.cons_append, counted_cons_text hk hts']
    exact ih (fun u hu => hline u (List.mem_cons_of_mem t hu)) hts'

/-- A macro contributes what its line does by itself.

**Proof sketch.** The rest of its line does not start a line, so that a macro or text behind it is
read as if it began there; the lines below are counted by themselves. -/
theorem counted_cons_line (ht : t.IsPlaced) (hts : ∀ u ∈ ts, u.IsPlaced) :
    counted isolating (t :: ts) =
      counted isolating (t :: Token.restOfLine ts) ++ counted isolating ts := by
  obtain ⟨more, heq, hmore⟩ := Token.exists_eq_restOfLine_append ts
  have hline : ∀ u ∈ Token.restOfLine ts, u.startsLine = false :=
    fun u hu => Token.startsLine_of_mem_restOfLine hu
  have hplaced : ∀ u ∈ t :: Token.restOfLine ts, u.IsPlaced := by
    intro u hu
    rcases List.mem_cons.mp hu with rfl | hu
    · exact ht
    · exact hts u ((List.takeWhile_sublist _).subset hu)
  have hrest : counted isolating ts = counted isolating more := by
    conv_lhs => rw [heq]
    exact counted_restOfLine_append isolating hline (heq ▸ hts)
  rw [hrest]
  cases more with
  | nil =>
    rw [List.append_nil] at heq
    rw [← heq]
    exact (List.append_nil _).symm
  | cons u more =>
    have hmoreplaced : ∀ v ∈ u :: more, v.IsPlaced := by
      intro v hv
      exact hts v (by rw [heq]; exact List.mem_append_right _ hv)
    conv_lhs => rw [heq, ← List.cons_append]
    exact counted_append hplaced (hmoreplaced u List.mem_cons_self) (hmore u rfl)
      fun v hv => hmoreplaced v (List.mem_cons_of_mem u hv)

end Manpage

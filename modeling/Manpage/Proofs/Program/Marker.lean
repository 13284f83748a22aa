import Manpage.Proofs.Program.Margins

/-!
# The argument behind a marker

The marker of a paragraph is shown, and the argument behind it is an amount. Which tokens belong to
the marker can be said of the tokens alone: those up to the closing quote, or up to the next blank.
A comment that begins in the marker hides the rest of the line, and there is no argument then.

## Main definitions

* `Manpage.Token.isComment`, `Manpage.Token.behind` — a comment, and the tokens behind a closing
  token.
* `Manpage.Token.secondArgument?` — the argument behind the marker.
* `Manpage.Opens` — the frames above that of the marker.

## Main results

* `Manpage.feed_opens` — the tokens of a marker.
* `Manpage.filter_programFrom_marker` — the line of a paragraph with a marker.
-/

namespace Manpage

variable {f g : Frame} {fs rest : List Frame} {t caller : Token} {ts : List Token} {p : Purpose}
  {stop : TokenKind} {escaped isolating : Bool}

/-! ## Tokens of a line -/

namespace Token

/-- A token that begins a comment, where it is the command of an escape. -/
def isComment (t : Token) : Bool :=
  t.kind = .command && Escape.ofCommand t.value = .comment

/-- The tokens behind the next one of a kind, and none where a comment begins before; the mark says
that the token before is a backslash. -/
def behind (stop : TokenKind) (escaped : Bool) : List Token → List Token
  | [] => []
  | t :: ts =>
    if t.kind = stop then ts
    else if escaped && t.isComment then []
    else behind stop (t.kind = .backslash) ts

/-- The tokens behind an argument are some of the tokens of the line, in order. By induction on the
tokens: those of the marker are left out, and after a comment all of them. -/
theorem behind_sublist (stop : TokenKind) (escaped : Bool) (ts : List Token) :
    (behind stop escaped ts).Sublist ts := by
  induction ts generalizing escaped with
  | nil => exact List.Sublist.refl []
  | cons t ts ih =>
    simp only [behind]
    split
    · exact List.sublist_cons_self t ts
    · split
      · exact List.nil_sublist _
      · exact (ih _).cons t

/-- The tokens behind the first argument on a line. -/
def behindFirst : List Token → List Token
  | [] => []
  | t :: ts =>
    if t.kind = .blank then behindFirst ts
    else if t.kind = .quote then behind .quote false ts
    else behind .blank false (t :: ts)

/-- The argument behind the marker of a paragraph, if it has one. -/
def secondArgument? (ts : List Token) : Option Text :=
  firstArgument? (behindFirst (restOfLine ts))

end Token

/-! ## Frames of a marker -/

/-- A frame for a part of an escape behind its command. -/
def Frame.isPart : Frame → Bool
  | .escapeArgument _ | .openedArgument _ _ | .characterName _ _ | .closingBracket | .fontEnd =>
    true
  | _ => false

/-- The frames above that of a marker: an escape, where the token before is a backslash, or else
frames for parts of one. -/
def Opens (escaped : Bool) (fs : List Frame) : Prop :=
  if escaped then fs = [.escape] else ∀ f ∈ fs, f.isPart = true

/-- The frames of an escape are textual, whatever the sort. They store no instructions, and none of
them waits for a tag. -/
theorem Opens.isTextual {P : Instr → Bool} (h : Opens escaped fs) : IsTextual P fs := by
  intro f hf
  cases escaped with
  | true =>
    obtain rfl : fs = [.escape] := h
    obtain rfl := List.mem_singleton.mp hf
    exact ⟨trivial, by simp⟩
  | false =>
    have hpart : ∀ f ∈ fs, f.isPart = true := h
    have hf := hpart f hf
    cases f with
    | escapeArgument | openedArgument | characterName | closingBracket | fontEnd =>
      exact ⟨trivial, by simp⟩
    | _ => exact Bool.noConfusion hf

/-- The frame of a marker that a token of the given kind ends. -/
def Frame.IsMarker (stop : TokenKind) (g : Frame) : Prop :=
  g = .quoted ∧ stop = .quote ∨ g = .unit ∧ stop = .blank

/-- The frames that a marker is read with are textual, whatever the sort. -/
theorem Frame.IsMarker.isTextual {P : Instr → Bool} (h : g.IsMarker stop) : IsTextual P [g] := by
  intro f hf
  obtain rfl := List.mem_singleton.mp hf
  rcases h with ⟨rfl, -⟩ | ⟨rfl, -⟩ <;> exact ⟨trivial, by simp⟩

/-- A word leaves the frame of an escape where it is a backslash, and else none. -/
theorem Step.word_frames (isolating : Bool) (ht : t.kind ≠ .macroName) :
    Opens (t.kind = .backslash) (Step.word isolating t).frames := by
  unfold Step.word
  cases hk : t.kind with
  | macroName => exact absurd hk ht
  | backslash => exact rfl
  | _ => simp [Opens]

/-- A part of an escape takes only other parts of it.

**Proof sketch.** By cases on the frame: each asks for the kind of the token, and the kinds that it
takes are those of parts of escapes. -/
theorem Frame.react_part (isolating : Bool) (hf : f.isPart = true) (t : Token) :
    (∃ out, f.react isolating t = .pass out) ∨
      ∃ s : Step, f.react isolating t = .take s ∧ t.kind.isEscapePart = true ∧
        ∀ g ∈ s.frames, g.isPart = true := by
  have hclosing : ∀ bracketed : Bool,
      ∀ g ∈ (if bracketed then [closingBracket] else []), g.isPart = true :=
    forall_mem_closing rfl
  cases f with
  | escapeArgument u =>
    simp only [react]
    split
    · exact Or.inl ⟨_, rfl⟩
    · split
      · rename_i hk
        exact Or.inr ⟨_, rfl, by simp [hk, TokenKind.isEscapePart], by simp [isPart]⟩
      · rename_i hk
        exact Or.inr ⟨_, rfl, by simp [hk, TokenKind.isEscapePart], by simp [isPart]⟩
      · rename_i hk
        exact Or.inr ⟨_, rfl, by simp [hk, TokenKind.isEscapePart], by simp⟩
      · exact Or.inl ⟨_, rfl⟩
  | openedArgument u bracketed =>
    simp only [react]
    split
    · rename_i hk
      exact Or.inr ⟨_, rfl, by simp [hk, TokenKind.isEscapePart], hclosing bracketed⟩
    · exact Or.inl ⟨_, rfl⟩
  | characterName command bracketed =>
    simp only [react]
    split
    · exact Or.inl ⟨_, rfl⟩
    · rename_i hk
      simp only [Bool.or_eq_true, decide_eq_true_eq, not_or, not_not] at hk
      exact Or.inr ⟨_, rfl, by simp [hk.2, TokenKind.isEscapePart], hclosing bracketed⟩
  | closingBracket =>
    simp only [react]
    split
    · rename_i hk
      exact Or.inr ⟨_, rfl, by simp [hk, TokenKind.isEscapePart], by simp⟩
    · exact Or.inl ⟨_, rfl⟩
  | fontEnd => exact Or.inl ⟨_, rfl⟩
  | _ => exact Bool.noConfusion hf

/-- The command of an escape leaves frames for its parts, unless it begins a comment. -/
theorem Step.command_frames (t : Token) :
    (Escape.ofCommand t.value = .comment ∧ (Step.command t).frames = [.restOfLine []]) ∨
      (Escape.ofCommand t.value ≠ .comment ∧ ∀ f ∈ (Step.command t).frames, f.isPart = true) := by
  unfold Step.command
  cases Escape.ofCommand t.value <;> simp [Frame.isPart]

/-! ## Tokens of a marker -/

/-- Parts of an escape pass on whatever is none. By induction on the frames: each of them takes
parts of its own escape only. -/
theorem feed_parts (isolating : Bool) (hfs : ∀ f ∈ fs, f.isPart = true)
    (ht : t.kind.isEscapePart = false) : ∃ out, ∀ rest, feed isolating (fs ++ rest) t =
      ⟨out ++ (feed isolating rest t).out, (feed isolating rest t).frames⟩ := by
  induction fs with
  | nil => exact ⟨[], fun _ => rfl⟩
  | cons f fs ih =>
    obtain ⟨more, hmore⟩ := ih fun g hg => hfs g (List.mem_cons_of_mem f hg)
    rcases f.react_part isolating (hfs f List.mem_cons_self) t with ⟨out, hreact⟩ | ⟨s, -, hk, -⟩
    · refine ⟨out ++ more, fun rest => ?_⟩
      simp only [List.cons_append, feed, hreact, hmore, List.append_assoc]
    · exact absurd (ht.symm.trans hk) (by simp)

/-- A token of a marker comes to the frame of the marker, or to a part of an escape above it.

**Proof sketch.** By induction on the parts of the escape. Each of them takes the token or passes it
on; once it comes to the marker, it is taken as in a word. Only a backslash opens an escape of its
own. -/
theorem feed_marker (isolating : Bool) (hg : g.IsMarker stop) (hfs : ∀ f ∈ fs, f.isPart = true)
    (hl : t.startsLine = false) (hk : t.kind ≠ .macroName) (hstop : t.kind ≠ stop) :
    ∃ out fs', Opens (t.kind = .backslash) fs' ∧
      ∀ rest, feed isolating (fs ++ g :: rest) t = ⟨out, fs' ++ g :: rest⟩ := by
  induction fs with
  | nil =>
    refine ⟨(Step.word isolating t).out, (Step.word isolating t).frames,
      Step.word_frames isolating hk, fun rest => ?_⟩
    have hreact : g.react isolating t = .take ((Step.word isolating t).above g) := by
      rcases hg with ⟨rfl, rfl⟩ | ⟨rfl, rfl⟩
      · simp only [Frame.react, hl, Bool.false_eq_true, if_false, if_neg hstop]
      · simp [Frame.react, hl, hstop]
    simp only [List.nil_append, feed, hreact, Step.above, List.append_assoc,
      List.singleton_append]
  | cons f fs ih =>
    obtain ⟨more, fs', hopens, hfeed⟩ := ih fun g hg => hfs g (List.mem_cons_of_mem f hg)
    rcases f.react_part isolating (hfs f List.mem_cons_self) t with
      ⟨out, hreact⟩ | ⟨s, hreact, hpart, hframes⟩
    · refine ⟨out ++ more, fs', hopens, fun rest => ?_⟩
      simp only [List.cons_append, feed, hreact, hfeed]
    · have hplain : (decide (t.kind = .backslash)) = false := by
        cases h : t.kind <;> simp_all [TokenKind.isEscapePart]
      refine ⟨s.out, s.frames ++ fs, ?_, fun rest => ?_⟩
      · rw [hplain]
        exact List.forall_mem_append.mpr ⟨hframes, fun g hg => hfs g (List.mem_cons_of_mem f hg)⟩
      · simp only [List.cons_append, feed, hreact, List.append_assoc]

/-- **The tokens of a marker.** A token that does not end the marker leaves frames above that of the
marker, as its kind says; a comment leaves a frame that skips the rest of the line.

**Proof sketch.** Where the token before is a backslash, the token is the command of its escape, or
it is passed on to the frame of the marker, as it is by the parts of an escape. -/
theorem feed_opens (isolating : Bool) (hg : g.IsMarker stop) (hfs : Opens escaped fs)
    (hl : t.startsLine = false) (hk : t.kind ≠ .macroName) (hstop : t.kind ≠ stop) :
    if escaped && t.isComment then
      ∃ out, ∀ rest, feed isolating (fs ++ g :: rest) t = ⟨out, .restOfLine [] :: g :: rest⟩
    else
      ∃ out fs', Opens (t.kind = .backslash) fs' ∧
        ∀ rest, feed isolating (fs ++ g :: rest) t = ⟨out, fs' ++ g :: rest⟩ := by
  cases escaped with
  | false =>
    rw [Bool.false_and, if_neg (by simp)]
    exact feed_marker isolating hg hfs hl hk hstop
  | true =>
    obtain rfl : fs = [.escape] := hfs
    rw [Bool.true_and]
    by_cases hcommand : t.kind = .command
    · have hfeed : ∀ rest, feed isolating ([.escape] ++ g :: rest) t =
          ⟨(Step.command t).out, (Step.command t).frames ++ g :: rest⟩ := fun rest => by
        simp [feed, Frame.react, hl, hcommand]
      rcases Step.command_frames t with ⟨hcomment, hframes⟩ | ⟨hcomment, hframes⟩
      · rw [if_pos (by simp [Token.isComment, hcommand, hcomment])]
        exact ⟨_, fun rest => by rw [hfeed, hframes]; rfl⟩
      · rw [if_neg (by simp [Token.isComment, hcomment])]
        refine ⟨_, (Step.command t).frames, ?_, hfeed⟩
        simpa [Opens, hcommand] using hframes
    · obtain ⟨out, fs', hopens, hfeed⟩ :=
        feed_marker isolating hg (List.forall_mem_nil _) hl hk hstop
      rw [if_neg (by simp [Token.isComment, hcommand])]
      refine ⟨out, fs', hopens, fun rest => ?_⟩
      have hpass : Frame.escape.react isolating t = .pass [] := by
        simp [Frame.react, hcommand]
      have hbelow : feed isolating (g :: rest) t = ⟨out, fs' ++ g :: rest⟩ := hfeed rest
      rw [List.singleton_append, feed, hpass, hbelow]
      rfl

/-- The frames above that of a marker pass on the token that ends it. What ends a marker is no part
of an escape, and the frames have nothing in store that counts. -/
theorem Opens.feed_stop (isolating : Bool) (hfs : Opens escaped fs)
    (ht : t.kind.isEscapePart = false) (hcommand : t.kind ≠ .command) (hk : t.kind ≠ .macroName) :
    ∃ out, NoneOf Instr.isCounted out ∧ ∀ rest, feed isolating (fs ++ rest) t =
      ⟨out ++ (feed isolating rest t).out, (feed isolating rest t).frames⟩ := by
  have hpass : ∃ out, ∀ rest, feed isolating (fs ++ rest) t =
      ⟨out ++ (feed isolating rest t).out, (feed isolating rest t).frames⟩ := by
    cases escaped with
    | false => exact feed_parts isolating hfs ht
    | true =>
      obtain rfl : fs = [.escape] := hfs
      exact ⟨[], fun rest => by simp [feed, Frame.react, hcommand]⟩
  obtain ⟨out, hfeed⟩ := hpass
  have hfree := (feed_textual isolating isSortOfCounted_isCounted hfs.isTextual hk).1
  rw [← List.append_nil fs, hfeed []] at hfree
  exact ⟨out, (noneOf_append.mp hfree).1, hfeed⟩

/-! ## Lines of a marker -/

/-- Instructions that are stored come before whatever is read next. -/
theorem programFrom_afterwards (isolating : Bool) (out : List Instr) (rest : List Frame)
    (ts : List Token) : programFrom isolating (.afterwards out :: rest) ts =
      out ++ programFrom isolating rest ts := by
  cases ts with
  | nil => rfl
  | cons t ts => simp only [programFrom, feed, Frame.react, List.append_assoc]

/-- The end of a marker contributes nothing.

**Proof sketch.** The parts of an escape that are still open are completed by the token, and the
marker by its end; the space behind it does not count. For either sort of marker, these are the
steps. -/
theorem filter_programFrom_stop (isolating : Bool) (hg : g.IsMarker stop) (hfs : Opens escaped fs)
    (p : Purpose) (caller : Token) (hl : t.startsLine = false) (hk : t.kind = stop) :
    (programFrom isolating (fs ++ g :: .afterwards [.space] :: [.argument p caller])
        (t :: ts)).filter Instr.isCounted =
      (programFrom isolating [.argument p caller] ts).filter Instr.isCounted := by
  have hspace : [Instr.space].filter Instr.isCounted = [] := rfl
  rcases hg with ⟨rfl, rfl⟩ | ⟨rfl, rfl⟩
  · obtain ⟨out, hout, hfeed⟩ := hfs.feed_stop isolating (t := t)
      (by simp [hk, TokenKind.isEscapePart]) (by simp [hk]) (by simp [hk])
    simp only [programFrom, hfeed, feed, Frame.react, hl, hk, Bool.false_eq_true, if_false, if_true,
      List.nil_append, programFrom_afterwards, List.filter_append, hout.filter_eq, hspace]
    rfl
  · obtain ⟨out, hout, hfeed⟩ := hfs.feed_stop isolating (t := t)
      (by simp [hk, TokenKind.isEscapePart]) (by simp [hk]) (by simp [hk])
    simp only [programFrom, hfeed, feed, Frame.react, hl, hk, Bool.false_eq_true, if_false, if_true,
      decide_true, Bool.or_true, List.append_nil, List.filter_append, hout.filter_eq,
      List.nil_append, List.singleton_append]
    rfl

/-- What is left of a marker at the end of its line contributes nothing, and the argument is read
from the tokens behind the marker.

**Proof sketch.** Induction on the tokens, with the frames above that of the marker. -/
theorem filter_programFrom_behind (isolating : Bool) (hg : g.IsMarker stop) (hfs : Opens escaped fs)
    (p : Purpose) (caller : Token) (hline : ∀ t ∈ ts, t.startsLine = false)
    (hts : ∀ t ∈ ts, t.kind ≠ .macroName) :
    (programFrom isolating (fs ++ g :: .afterwards [.space] :: [.argument p caller]) ts).filter
        Instr.isCounted =
      (programFrom isolating [.argument p caller] (Token.behind stop escaped ts)).filter
        Instr.isCounted := by
  have hP := isSortOfCounted_isCounted
  induction ts generalizing fs escaped with
  | nil =>
    have hfree := finish_free hP.stored (hfs.isTextual (P := Instr.isCounted))
    have hgfree := finish_free hP.stored (hg.isTextual (P := Instr.isCounted))
    rw [programFrom, finish_append, ← List.singleton_append, finish_append, List.filter_append,
      List.filter_append, hfree.filter_eq, hgfree.filter_eq]
    rfl
  | cons t ts ih =>
    have hl := hline t List.mem_cons_self
    have hk := hts t List.mem_cons_self
    have hline' : ∀ u ∈ ts, u.startsLine = false := fun u hu => hline u (List.mem_cons_of_mem t hu)
    have hts' : ∀ u ∈ ts, u.kind ≠ .macroName := fun u hu => hts u (List.mem_cons_of_mem t hu)
    by_cases hstop : t.kind = stop
    · rw [Token.behind, if_pos hstop]
      exact filter_programFrom_stop isolating hg hfs p caller hl hstop
    -- up to the stop every frame is textual, so nothing that is sent out is counted
    have htextual : IsTextual Instr.isCounted (fs ++ [g]) :=
      List.forall_mem_append.mpr ⟨hfs.isTextual, hg.isTextual⟩
    have hout := (feed_textual isolating hP htextual hk).1
    have hopens := feed_opens isolating hg hfs hl hk hstop
    rw [Token.behind, if_neg hstop]
    split at hopens
    · rename_i hcomment
      -- a comment skips the rest of the line, and no argument is left behind the marker
      obtain ⟨out, hfeed⟩ := hopens
      rw [hfeed []] at hout
      have hrest := filter_programFrom_restOfLine isolating []
        (g :: .afterwards [.space] :: [.argument p caller]) hline'
      have hgfree := finish_free hP.stored (hg.isTextual (P := Instr.isCounted))
      have hstep : programFrom isolating (fs ++ g :: .afterwards [.space] :: [.argument p caller])
          (t :: ts) = out ++ programFrom isolating
            (.restOfLine [] :: g :: .afterwards [.space] :: [.argument p caller]) ts := by
        simp only [programFrom, hfeed]
      rw [if_pos hcomment, hstep, List.filter_append, hout.filter_eq, hrest, List.nil_append,
        List.nil_append, ← List.singleton_append, finish_append, List.filter_append,
        hgfree.filter_eq]
      rfl
    · rename_i hcomment
      obtain ⟨out, fs', hfs', hfeed⟩ := hopens
      rw [hfeed []] at hout
      have hstep : programFrom isolating (fs ++ g :: .afterwards [.space] :: [.argument p caller])
          (t :: ts) = out ++ programFrom isolating
            (fs' ++ g :: .afterwards [.space] :: [.argument p caller]) ts := by
        simp only [programFrom, hfeed]
      rw [if_neg hcomment, hstep, List.filter_append, hout.filter_eq, List.nil_append]
      exact ih hfs' hline' hts'

/-- **The line of a paragraph with a marker.** The marker contributes nothing, and the argument
behind it is settled once.

**Proof sketch.** Blanks before the marker are skipped. The marker is gathered by the frame of a
quoted argument, or else by that of a unit. -/
theorem filter_programFrom_marker (isolating : Bool) (p : Purpose) (caller : Token)
    (hline : ∀ t ∈ ts, t.startsLine = false) (hts : ∀ t ∈ ts, t.kind ≠ .macroName) :
    (programFrom isolating [.marker, .argument p caller] ts).filter Instr.isCounted =
      ((p.settle caller (Token.firstArgument? (Token.behindFirst ts))).1 ++
        (p.settle caller (Token.firstArgument? (Token.behindFirst ts))).2).filter
          Instr.isCounted := by
  have hargument : ∀ us : List Token, (∀ u ∈ us, u.startsLine = false) →
      (programFrom isolating [.argument p caller] us).filter Instr.isCounted =
        ((p.settle caller (Token.firstArgument? us)).1 ++
          (p.settle caller (Token.firstArgument? us)).2).filter Instr.isCounted := by
    intro us hus
    rw [filter_programFrom_argument isolating p caller [] hus, finish, List.flatMap_nil,
      List.append_nil]
  induction ts with
  | nil => exact hargument [] (by simp)
  | cons t ts ih =>
    have hl := hline t List.mem_cons_self
    have hk := hts t List.mem_cons_self
    have hline' : ∀ u ∈ ts, u.startsLine = false := fun u hu => hline u (List.mem_cons_of_mem t hu)
    have hts' : ∀ u ∈ ts, u.kind ≠ .macroName := fun u hu => hts u (List.mem_cons_of_mem t hu)
    have hnone : Opens false [] := by simp [Opens]
    have hbehind : ∀ {stop escaped us}, (∀ u ∈ us, u.startsLine = false) →
        ∀ u ∈ Token.behind stop escaped us, u.startsLine = false :=
      fun h u hu => h u ((Token.behind_sublist _ _ _).subset hu)
    by_cases hblank : t.kind = .blank
    · rw [Token.behindFirst, if_pos hblank, ← ih hline' hts']
      simp only [programFrom, feed, Frame.react, hl, hblank, Bool.false_eq_true, if_false, if_true]
      rfl
    by_cases hquote : t.kind = .quote
    · have hgather := filter_programFrom_behind isolating (Or.inl ⟨rfl, rfl⟩) hnone p caller hline'
        hts'
      rw [Token.behindFirst, if_neg hblank, if_pos hquote, ← hargument _ (hbehind hline'),
        ← hgather]
      simp only [programFrom, feed, Frame.react, Step.argument, hl, hquote, Bool.false_eq_true,
        if_false, if_true]
      rfl
    · -- the first token of a unit comes to the frame of the unit as any other would
      -- a quoted marker goes on to the closing quote
      have hgather := filter_programFrom_behind isolating (Or.inr ⟨rfl, rfl⟩) hnone p caller hline
        hts
      rw [Token.behindFirst, if_neg hblank, if_neg hquote, ← hargument _ (hbehind hline), ← hgather]
      simp only [programFrom, feed, Frame.react, Step.argument, Step.unit, hl, Bool.false_eq_true,
        if_false, if_neg hblank, if_neg hquote, List.nil_append, Bool.false_or,
        decide_eq_false hblank, Step.above, Step.preceded, List.append_assoc]
      rfl

end Manpage

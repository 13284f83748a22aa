import Manpage.Proofs.Program.Reading
import Manpage.Proofs.Token.Value

/-!
# The program of a source, line by line

The program of a source is put together from those of its lines, where no frame that a line leaves
goes on with the next line.

## Main definitions

* `Manpage.Frame.EndsAtLine` — a frame that is complete at the end of its line.

## Main results

* `Manpage.programFrom_of_endsAtLine` — the frames of a line are completed before the next.
* `Manpage.program_ofLines` — the program of several lines.
-/

namespace Manpage

variable {isolating : Bool} {t : Token} {ts us : List Token} {stack : List Frame}

/-! ## Line by line -/

/-- A frame that is complete at the end of its line. -/
def Frame.EndsAtLine (f : Frame) : Prop :=
  ∀ (isolating : Bool) (t : Token), t.startsLine = true → f.react isolating t = .pass f.atEnd

/-- A line of text ends at the end of its line. -/
theorem Frame.endsAtLine_line : Frame.line.EndsAtLine := by
  intro _ t ht
  simp [react, ht, atEnd]

/-- A unit ends at the end of its line. -/
theorem Frame.endsAtLine_unit : Frame.unit.EndsAtLine := by
  intro _ t ht
  simp [react, ht, atEnd]

/-- The rest of a line ends at the end of that line, whatever is in store. -/
theorem Frame.endsAtLine_restOfLine (out : List Instr) : (Frame.restOfLine out).EndsAtLine := by
  intro _ t ht
  simp [react, ht, atEnd]

/-- A bare argument ends at the end of its line. -/
theorem Frame.endsAtLine_bareArgument (p : Purpose) (caller : Token) (text : Text) :
    (Frame.bareArgument p caller text).EndsAtLine := by
  intro _ t ht
  simp [react, ht, atEnd]

/-- The first token of a line comes to the empty stack, once all frames are complete. By induction
on the stack: each frame sends out what it has in store and lets go of the token. -/
theorem feed_of_endsAtLine (h : ∀ f ∈ stack, f.EndsAtLine) (ht : t.startsLine = true) :
    feed isolating stack t =
      ⟨finish stack ++ (Step.top isolating t).out, (Step.top isolating t).frames⟩ := by
  induction stack with
  | nil => rfl
  | cons f below ih =>
    have hbelow := ih fun g hg => h g (List.mem_cons_of_mem f hg)
    simp only [feed, h f List.mem_cons_self isolating t ht, hbelow]
    simp [finish]

/-- The program of tokens that begin a line, where all frames end at it. -/
theorem programFrom_of_endsAtLine (h : ∀ f ∈ stack, f.EndsAtLine)
    (hts : ∀ t ∈ ts.head?, t.startsLine = true) :
    programFrom isolating stack ts = finish stack ++ program isolating ts := by
  cases ts with
  | nil => simp [program, programFrom, finish]
  | cons t ts =>
    have ht : t.startsLine = true := hts t rfl
    simp only [program, programFrom, feed_of_endsAtLine h ht, feed, List.append_assoc]

/-- The program of tokens before the first of a line. -/
theorem program_append (h : ∀ f ∈ (feedAll isolating [] ts).frames, f.EndsAtLine)
    (hus : ∀ t ∈ us.head?, t.startsLine = true) :
    program isolating (ts ++ us) = program isolating ts ++ program isolating us := by
  have hfirst : program isolating ts =
      (feedAll isolating [] ts).out ++ finish (feedAll isolating [] ts).frames :=
    programFrom_eq isolating [] ts
  rw [hfirst, program, programFrom_append, programFrom_of_endsAtLine h hus, List.append_assoc]

/-- The first token of a chunk has the mark that the chunk is given. A chunk that is not empty has a
lexeme, and only the first of its tokens is given the mark. -/
theorem Token.exists_ofChunk_eq_cons (c : Char) (u : Text) (startsLine : Bool)
    (number column : Int) : ∃ t ts, Token.ofChunk (c :: u) startsLine number column = t :: ts ∧
      t.startsLine = startsLine := by
  have hlexemes : ∃ x xs, Token.lexemes startsLine (c :: u) = x :: xs := by
    simp only [Token.lexemes]
    split
    · exact ⟨_, _, rfl⟩
    · split
      · exact ⟨_, _, rfl⟩
      · obtain ⟨x, xs, heq, -⟩ := Lexeme.ofChunk_eq_cons c u
        exact ⟨x, xs, heq⟩
  obtain ⟨x, xs, heq⟩ := hlexemes
  rw [Token.ofChunk, heq]
  exact ⟨_, _, rfl, rfl⟩

/-- The first token of a line starts it. A blank line is one empty token; otherwise it is that of
the first chunk, whichever sort it is. -/
theorem Token.startsLine_head?_ofLine (number : Nat) (line : Text) :
    ∀ t ∈ (Token.ofLine number line).head?, t.startsLine = true := by
  unfold Token.ofLine
  split
  · simp
  · unfold Chunk.ofLine
    cases hms : line.splitBy sameChunk with
    | nil => simp [Chunk.place]
    | cons m ms =>
      have hne : m ≠ [] := by
        refine List.ne_nil_of_mem_splitBy (r := sameChunk) (l := line) ?_
        rw [hms]
        exact List.mem_cons_self
      obtain ⟨c, u, rfl⟩ := List.exists_cons_of_ne_nil hne
      simp only [Chunk.place]
      split
      · simp
      · obtain ⟨t, ts, heq, ht⟩ :=
          Token.exists_ofChunk_eq_cons c u true number (((0 : Nat) : Int) + 1)
        rw [heq]
        intro a ha
        obtain rfl : t = a := by simpa using ha
        exact ht

/-- The tokens of lines begin with one that starts a line. By induction on the lines, since a
comment leaves a line without tokens. -/
theorem Token.startsLine_head?_ofLines (number : Nat) (lines : List Text) :
    ∀ t ∈ (Token.ofLines number lines).head?, t.startsLine = true := by
  induction lines generalizing number with
  | nil => simp [Token.ofLines]
  | cons line lines ih =>
    have hline := Token.startsLine_head?_ofLine number line
    rw [Token.ofLines]
    cases heq : Token.ofLine number line with
    | nil => exact ih (number + 1)
    | cons t ts =>
      rw [heq] at hline
      exact hline

/-- The program of several lines, the first of which leaves nothing for the others. -/
theorem program_ofLines (number : Nat) (line : Text) (lines : List Text)
    (h : ∀ f ∈ (feedAll isolating [] (Token.ofLine number line)).frames, f.EndsAtLine) :
    program isolating (Token.ofLines number (line :: lines)) =
      program isolating (Token.ofLine number line) ++
        program isolating (Token.ofLines (number + 1) lines) :=
  program_append h (Token.startsLine_head?_ofLines (number + 1) lines)

end Manpage

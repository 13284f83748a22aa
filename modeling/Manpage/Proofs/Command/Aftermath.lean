import Manpage.Proofs.Command.Answers
import Manpage.Proofs.Command.Files
import Manpage.Proofs.Config.Hexadecimal

/-!
# What a run leaves behind

A run that fails leaves nothing behind: it prints nothing and changes no file. A run that succeeds
leaves the text of its source in one place, the output file or else the standard output. A run is
refused for what its configuration file says, whatever its flags are.

## Main definitions

* `Manpage.Aftermath` — what a run leaves behind, with `Manpage.Ending.carryOut`.

## Main results

* `Manpage.carryOut_run` — what a run leaves behind.
* `Manpage.not_forall_exitCode_eq_two_iff` — not every value of the wrong kind is reported.
-/

namespace Manpage

/-- What a run leaves behind: its exit code, unless it is aborted, what it has printed, and the
files. -/
structure Aftermath where
  exitCode : Option Nat
  stdout : Text
  tree : Tree

/-- A report that is carried out. Where the output file cannot be written, the run is aborted. -/
def Report.carryOut (report : Report) (t : Tree) : Aftermath :=
  match report.output with
  | none => ⟨some report.exitCode, report.stdout, t⟩
  | some (p, text) =>
    match t.write p (Utf8.encode text) with
    | .ok after => ⟨some report.exitCode, report.stdout, after⟩
    | .error _ => ⟨none, report.stdout, t⟩

/-- An end that is carried out. -/
def Ending.carryOut (ending : Ending) (t : Tree) : Aftermath :=
  match ending with
  | stopped s => ⟨some s.exitCode, if s = .help then helpText else [], t⟩
  | refused r => (Command.refusalReport r).carryOut t
  | aborted _ => ⟨none, [], t⟩
  | done report => report.carryOut t

namespace Ending

variable {o : Options} {stderr text : Text} {t : Tree}

/-- A run that fails leaves nothing behind, and its exit code is neither 0 nor 2. -/
theorem Fails.carryOut {ending : Ending} (h : ending.Fails) (t : Tree) :
    (ending.carryOut t).exitCode ≠ some 0 ∧ (ending.carryOut t).exitCode ≠ some 2 ∧
      (ending.carryOut t).stdout = [] ∧ (ending.carryOut t).tree = t := by
  cases h <;> simp [Ending.carryOut, Report.carryOut]

/-- A text written to the standard output. -/
theorem carryOut_written_stdout (houtput : o.output = none) :
    (done (Command.written o stderr text)).carryOut t = ⟨some 0, text, t⟩ := by
  simp [carryOut, Report.carryOut, Command.written, houtput]

/-- A text written to the output file, or an abort that leaves nothing behind. -/
theorem carryOut_written_file {p : Path} (houtput : o.output = some p) :
    (done (Command.written o stderr text)).carryOut t =
      match t.write p (Utf8.encode text) with
      | .ok after => ⟨some 0, [], after⟩
      | .error _ => ⟨none, [], t⟩ := by
  simp only [carryOut, Report.carryOut, Command.written, houtput]

end Ending

/-- The text of a run is where it belongs: in the output file, if one is given, and else on the
standard output. -/
def Aftermath.Holds (a : Aftermath) (before : Tree) (output : Option Path) (text : Text) : Prop :=
  match output with
  | none => a.stdout = text ∧ a.tree = before
  | some p => a.stdout = [] ∧ ∃ place, before.Receives p place text a.tree

/-- The output file, if one is given, can be written. -/
def Tree.Admits (t : Tree) (output : Option Path) (text : Text) : Prop :=
  ∀ p ∈ output, ∃ after, t.write p (Utf8.encode text) = .ok after

/-- A text that is written leaves the text where it belongs, or nothing behind. -/
theorem carryOut_written (o : Options) (stderr text : Text) (t : Tree) :
    let a := (Ending.done (Command.written o stderr text)).carryOut t
    (a.exitCode = some 0 ∧ a.Holds t o.output text) ∨
      (¬ t.Admits o.output text ∧ a.exitCode = none ∧ a.stdout = [] ∧ a.tree = t) := by
  cases houtput : o.output with
  | none =>
    rw [Ending.carryOut_written_stdout houtput]
    exact .inl ⟨rfl, rfl, rfl⟩
  | some p =>
    rw [Ending.carryOut_written_file houtput]
    cases hwrite : t.write p (Utf8.encode text) with
    | ok after => exact .inl ⟨rfl, rfl, Tree.exists_receives_of_write hwrite⟩
    | error e => exact .inr ⟨fun h => by simpa [hwrite] using h p rfl, rfl, rfl, rfl⟩

/-- What a run that ends in one of its ways leaves behind.

**Proof sketch.** A refusal has exit code 2 and comes of a configuration that is reported; a failure
has neither exit code and leaves nothing; an answer either is where it belongs or could not be
written, and then nothing is left either. -/
theorem Command.Ends.carryOut {limits : Config.Limits} {r : Request} {env : Environment}
    {ending : Ending} (h : Ends limits r env ending) (t : Tree) :
    let a := ending.carryOut t
    (a.exitCode ≠ some 0 → a.stdout = [] ∧ a.tree = t) ∧
    (a.exitCode = some 2 ↔ Config.IsReported limits (env.read r.configPath)) ∧
    (a.exitCode = some 0 →
      ∃ source name columns text, Answers limits r env source name columns text ∧
        a.Holds t (Request.pathOf r.output) (text ++ ['\n'])) := by
  intro a
  cases h with
  | refused refusal hreported =>
    exact ⟨fun _ => ⟨rfl, rfl⟩, ⟨fun _ => hreported, fun _ => rfl⟩, fun h => by cases h⟩
  | failed hfails hreported =>
    obtain ⟨hzero, htwo, hstdout, htree⟩ := hfails.carryOut t
    exact ⟨fun _ => ⟨hstdout, htree⟩, iff_of_false htwo hreported, fun h => absurd h hzero⟩
  | @answered o source name columns text houtput hanswers stderr =>
    have hreported := hanswers.accepted.not_isReported
    rcases carryOut_written o stderr (text ++ ['\n']) t with
      ⟨hcode, hholds⟩ | ⟨-, hcode, hstdout, htree⟩
    · refine ⟨fun h => absurd hcode h, iff_of_false (fun h => ?_) hreported, fun _ => ?_⟩
      · cases hcode.symm.trans h
      · exact ⟨source, name, columns, text, hanswers, houtput ▸ hholds⟩
    · refine ⟨fun _ => ⟨hstdout, htree⟩, iff_of_false (fun h => ?_) hreported, fun h => ?_⟩
      · cases hcode.symm.trans h
      · cases hcode.symm.trans h

/-- **What a run leaves behind.** A run for a request that does not succeed prints nothing and
changes no file. Its exit code is 2 just if the configuration file is malformed or sets something to
a value of the wrong kind that can be shown, whatever the flags are. It is 0 just if the request
comes to a text that can be written; the text is then where it belongs, with a line feed behind it.
All this holds whatever the limits of the readers are.

**Proof sketch.** A run ends in one of three ways: it is refused, it fails, or it writes a text.
Only a write changes a file, and it is the last thing that a run does. -/
theorem carryOut_run {args : List Text} {r : Request} (hparse : Request.parse args = .ok r)
    (limits : Config.Limits) (terminal : Option Text) (stdin : Text) (t : Tree) :
    let env : Environment := ⟨terminal, stdin, t.read⟩
    let a := (Command.run args env limits).carryOut t
    (a.exitCode ≠ some 0 → a.stdout = [] ∧ a.tree = t) ∧
    (a.exitCode = some 2 ↔
      Config.IsMalformed limits (t.read r.configPath) ∨
        ∃ setting w, Config.wrong? limits (t.read r.configPath) = some (setting, w) ∧
          w.hindrance? limits = none) ∧
    (a.exitCode = some 0 →
      ∃ source name columns text, Answers limits r env source name columns text ∧
        a.Holds t (Request.pathOf r.output) (text ++ ['\n'])) ∧
    (∀ source name columns text, Answers limits r env source name columns text →
      t.Admits (Request.pathOf r.output) (text ++ ['\n']) → a.exitCode = some 0) := by
  intro env a
  obtain ⟨hfailed, hreported, hanswered⟩ := (Command.ends_run hparse env limits).carryOut t
  refine ⟨hfailed, hreported, hanswered, fun source name columns text hanswers hadmits => ?_⟩
  obtain ⟨o, stderr, houtput, hrun⟩ := Command.exists_run_eq_done hparse hanswers
  rcases carryOut_written o stderr (text ++ ['\n']) t with ⟨hcode, -⟩ | ⟨hdenied, -⟩
  · have ha : a = (Ending.done (Command.written o stderr (text ++ ['\n']))).carryOut t :=
      congrArg (Ending.carryOut · t) hrun
    exact ha ▸ hcode
  · exact absurd (houtput ▸ hadmits) hdenied

/-- A run with a section that is a number is refused though a flag names another section. A run with
a width that is a number leaves its text in the output file. -/
theorem carryOut_run_of_numbers :
    let file : Text → List Text × List UInt8 := fun source => ([['a']], Utf8.encode source)
    let config : Text → List Text × List UInt8 := fun source => ([configName], Utf8.encode source)
    let wrong : Tree := ⟨[], [config "render.section=3", file ".SH NAME\nx\n"]⟩
    let right : Tree := ⟨[], [config "render.width=90", file "x\n"]⟩
    let refused :=
      (Command.run [['-', 's'], ['n', 'a', 'm', 'e'], ['a']] ⟨none, [], wrong.read⟩).carryOut wrong
    let written := (Command.run [['-', 'o'], ['b'], ['a']] ⟨none, [], right.read⟩).carryOut right
    (refused.exitCode = some 2 ∧ refused.stdout = [] ∧ refused.tree = wrong) ∧
    (written.exitCode = some 0 ∧
      ∃ source name columns text,
        Answers .usual ⟨['a'], some (.value ['b']), none, none, none, false, false⟩
          ⟨none, [], right.read⟩ source name columns text ∧
        written.Holds right (some ⟨[], [['b']]⟩) (text ++ ['\n'])) := by
  intro file config wrong right refused written
  have hrefused : refused.exitCode = some 2 := by decide +kernel
  have hwritten : written.exitCode = some 0 := by decide +kernel
  have hparse : Request.parse [['-', 's'], ['n', 'a', 'm', 'e'], ['a']] =
      .ok ⟨['a'], none, some (.value ['n', 'a', 'm', 'e']), none, none, false, false⟩ := by
    decide +kernel
  have hparse' : Request.parse [['-', 'o'], ['b'], ['a']] =
      .ok ⟨['a'], some (.value ['b']), none, none, none, false, false⟩ := by
    decide +kernel
  obtain ⟨hnothing, -⟩ := carryOut_run hparse .usual none [] wrong
  obtain ⟨-, -, hholds, -⟩ := carryOut_run hparse' .usual none [] right
  exact ⟨⟨hrefused, hnothing (by simp [refused, hrefused])⟩, hwritten, hholds hwritten⟩

/-- A configuration file that sets the section to a power of sixteen. Hexadecimal numbers are read
at any length, and the number is no text. -/
theorem wrong?_power_of_sixteen (limits : Config.Limits) (count : Nat) :
    Config.wrong? limits (.ok (Utf8.encode
        ("render.section=0x".toList ++ '1' :: '0' :: List.replicate count '0'))) =
      some ("render.section".toList, .integer (16 ^ (count + 1))) := by
  have hdigits : ∀ c ∈ '1' :: '0' :: List.replicate count '0', Config.isHexDigit c = true := by
    intro c hc
    rcases List.mem_cons.mp hc with rfl | hc
    · decide
    · obtain rfl : c = '0' := List.eq_of_mem_replicate (n := count + 1) hc
      decide
  have hvalue : Config.ofDigits 16 ('1' :: '0' :: List.replicate count '0') = 16 ^ (count + 1) := by
    have hpower := Config.ofDigits_append_zeros 16 (count + 1) ['1']
    simpa [List.replicate_succ, Config.ofDigits, Config.radixDigit] using hpower
  have hparse := Config.parse_hexadecimal limits hdigits
  rw [hvalue] at hparse
  simp only [Config.wrong?, Config.value?, Config.reading?, Utf8.decode_encode, hparse]
  simp
  rfl

/-- Not every value of the wrong kind is reported: a run is aborted for a section that is 16 to the
power of 3572, which has too many digits to be shown. -/
theorem not_forall_exitCode_eq_two_iff :
    ¬ ∀ (args : List Text) (r : Request) (terminal : Option Text) (stdin : Text) (t : Tree),
      Request.parse args = .ok r →
        (((Command.run args ⟨terminal, stdin, t.read⟩).carryOut t).exitCode = some 2 ↔
          Config.IsMalformed .usual (t.read r.configPath) ∨
            ∃ setting w, Config.wrong? .usual (t.read r.configPath) = some (setting, w)) := by
  intro h
  let source := "render.section=0x".toList ++ '1' :: '0' :: List.replicate 3571 '0'
  let t : Tree := ⟨[], [([configName], Utf8.encode source)]⟩
  let r : Request := ⟨['a'], none, none, none, none, false, false⟩
  have hparse : Request.parse [['a']] = .ok r := by decide +kernel
  have hread : t.read r.configPath = .ok (Utf8.encode source) := rfl
  have hwrong : Config.wrong? .usual (t.read r.configPath) =
      some ("render.section".toList, .integer (16 ^ 3572)) := by
    rw [hread]
    exact wrong?_power_of_sixteen .usual 3571
  have hlarge : Config.hasTooManyDigits (16 ^ 3572) = true := by decide +kernel
  generalize (16 ^ 3572 : Int) = n at hwrong hlarge
  obtain ⟨-, hreported, -⟩ := (Command.ends_run hparse ⟨none, [], t.read⟩ .usual).carryOut t
  rcases hreported.mp ((h [['a']] r none [] t hparse).mpr (.inr ⟨_, _, hwrong⟩)) with
    hmalformed | ⟨setting, w, hsome, hshown⟩
  · simp [hmalformed.wrong?_eq_none] at hwrong
  · obtain ⟨-, rfl⟩ := Prod.mk.inj (Option.some.inj (hwrong.symm.trans hsome))
    simp [Config.Value.hindrance?_integer .usual (by decide), hlarge] at hshown

end Manpage

import Manpage.Command.Run
import Manpage.Proofs.Command.Options

/-!
# What a run comes to

A run that has options reads a source and renders it for the section and the number of columns that
are chosen: by a flag if there is one, and else by a setting. It writes the text of the source, or
fails without one.

## Main definitions

* `Manpage.Chosen` — what a flag and a setting come to.
* `Manpage.Answers` — the text that a request comes to.
* `Manpage.Ending.Fails` — an end without a text.

## Main results

* `Manpage.Command.execute_cases` — a run with options writes the text of its source or fails.
* `Manpage.Command.ends_run` — a run is refused, or comes to a text, or fails.
-/

namespace Manpage

/-! ## Choices -/

/-- What a flag and a setting come to: the value of the flag if it is given, and else that of the
setting, if there is one. -/
inductive Chosen {α : Type} : Option (Given α) → Option α → Option α → Prop
  | flag (a : α) (setting : Option α) : Chosen (some (.value a)) setting (some a)
  | setting (setting : Option α) : Chosen none setting setting

/-- What is chosen is what an option has where the flag comes before the setting. A flag that is
there counts, with or without a value. -/
theorem chosen_iff {α : Type} {flag : Option (Given α)} {setting chosen : Option α} :
    Chosen flag setting chosen ↔
      (flag.orElse fun _ => setting.map .value) = chosen.map .value := by
  constructor
  · rintro (_ | _) <;> rfl
  · intro h
    rcases flag with - | - | a
    · obtain rfl : setting = chosen := by
        cases setting <;> cases chosen <;> simp_all
      exact .setting setting
    · cases chosen <;> simp at h
    · obtain rfl : some a = chosen := by
        cases chosen <;> simp_all
      exact .flag a setting

/-- The line width for a number of columns, or else for the terminal. -/
def lineWidthFor (terminal : Option Text) (columns : Option Int) : Int :=
  match columns with
  | some n => lineWidth n
  | none => terminalLineWidth terminal

/-- The source that a run reads, from its input file or else from the standard input. -/
inductive IsSource (env : Environment) : Option Path → Text → Prop
  | stdin : IsSource env none env.stdin
  | file {p : Path} {bytes : List UInt8} (h : env.read p = .ok bytes) :
      IsSource env (some p) (Text.withLineFeeds (Utf8.decodeLossy bytes))

/-- The text that a request comes to: the configuration file is accepted, the source is read, and it
is rendered for the section and the number of columns that are chosen. -/
structure Answers (limits : Config.Limits) (r : Request) (env : Environment) (source : Text)
    (name : Option Text) (columns : Option Int) (text : Text) : Prop where
  accepted : Config.Accepted limits (env.read r.configPath)
  reads : IsSource env r.inputPath source
  chosen_section : Chosen r.requested (Config.requested? limits (env.read r.configPath)) name
  chosen_columns : Chosen r.columns (Config.columns? limits (env.read r.configPath)) columns
  render_eq :
    render source (name.map Section.ofRequest) (lineWidthFor env.columns columns) = .ok text

/-- An end without a text, with what is said of it or without a report. -/
inductive Ending.Fails : Ending → Prop
  | aborted (a : Abort) : Fails (.aborted a)
  | done (stderr : Text) : Fails (.done ⟨1, [], stderr, none⟩)

namespace Command

variable {limits : Config.Limits} {o : Options} {env : Environment} {r : Request}
  {s : Config.Settings} {source : Text} {requested : Option Section} {width : Int}

/-- The source of a run is the one that it reads. It is the standard input as it stands, or the
decoded contents of a file with its line ends joined. -/
theorem sourceOf_eq_ok_iff : sourceOf o env = .ok source ↔ IsSource env o.input source := by
  rw [sourceOf]
  cases o.input with
  | none =>
    constructor
    · rintro ⟨⟩
      exact .stdin
    · rintro ⟨⟩
      rfl
  | some p =>
    constructor
    · intro h
      cases hread : env.read p with
      | error e => simp [hread] at h
      | ok bytes =>
        obtain rfl : _ = source := by simpa [hread] using h
        exact .file hread
    · rintro (_ | hread)
      simp [hread]

/-- The section of a run is the one that is chosen. It is missing where none is, and a flag without
a value is an error. -/
theorem sectionOf_merge_eq_ok_iff :
    sectionOf (Options.merge r s) = .ok requested ↔
      ∃ name, Chosen r.requested s.requested name ∧ requested = name.map Section.ofRequest := by
  simp only [chosen_iff, sectionOf]
  change _ ↔ ∃ name : Option Text, (Options.merge r s).requested = name.map .value ∧ _
  rw [Option.exists]
  cases (Options.merge r s).requested with
  | none => simp [eq_comm]
  | some g => cases g <;> simp [eq_comm]

/-- The line width of a run is that of the number of columns that is chosen. Where none is chosen it
is that of the terminal, and a flag without a value is an error. -/
theorem widthOf_merge_eq_ok_iff :
    widthOf (Options.merge r s) env = .ok width ↔
      ∃ columns, Chosen r.columns s.columns columns ∧ width = lineWidthFor env.columns columns := by
  simp only [chosen_iff, widthOf]
  change _ ↔ ∃ columns : Option Int, (Options.merge r s).columns = columns.map .value ∧ _
  rw [Option.exists]
  cases (Options.merge r s).columns with
  | none => simp [lineWidthFor, eq_comm]
  | some g => cases g <;> simp [lineWidthFor, eq_comm]

/-- A run on a source writes the text of the source, or fails. It fails at any fault, whether or not
the fault is reported. -/
theorem renderRun_cases (o : Options) (source : Text) (requested : Option Section) (width : Int) :
    (∃ text stderr, render source requested width = .ok text ∧
      renderRun o source requested width = .done (written o stderr (text ++ ['\n']))) ∨
    (∃ fault, render source requested width = .error fault ∧
      (renderRun o source requested width).Fails) := by
  simp only [render, renderRun]
  cases hfault : (interpretSource source requested width).fault with
  | none => exact .inl ⟨_, _, rfl, rfl⟩
  | some fault => cases fault <;> exact .inr ⟨_, rfl, by constructor⟩

/-- A run that finds all that it needs writes the text of its source. Its source, its section and
its width are all that it needs. -/
theorem exists_execute_eq_done {text : Text} (hsource : sourceOf o env = .ok source)
    (hsection : sectionOf o = .ok requested) (hwidth : widthOf o env = .ok width)
    (htext : render source requested width = .ok text) :
    ∃ stderr, execute o env = .done (written o stderr (text ++ ['\n'])) := by
  simp only [execute, hsource, hsection, hwidth]
  rcases renderRun_cases o source requested width with ⟨text', stderr, htext', hrun⟩ | ⟨fault, h, -⟩
  · obtain rfl := Except.ok.inj (htext'.symm.trans htext)
    exact ⟨stderr, hrun⟩
  · simp [h] at htext

/-- A run with options finds all that it needs and comes to a text, or fails. The source, the
section and the width are asked for one after the other, and the first that is not to be had ends
the run. -/
theorem execute_cases (o : Options) (env : Environment) :
    (∃ source requested width text, sourceOf o env = .ok source ∧ sectionOf o = .ok requested ∧
      widthOf o env = .ok width ∧ render source requested width = .ok text) ∨
    (execute o env).Fails := by
  rw [execute]
  cases hsource : sourceOf o env with
  | error failure =>
    obtain ⟨e, p⟩ := failure
    exact .inr (by cases e <;> constructor)
  | ok source =>
    cases hsection : sectionOf o with
    | error a => exact .inr (.aborted a)
    | ok requested =>
      cases hwidth : widthOf o env with
      | error a => exact .inr (.aborted a)
      | ok width =>
        rcases renderRun_cases o source requested width with ⟨text, -, htext, -⟩ | ⟨-, -, hfails⟩
        · exact .inl ⟨source, requested, width, text, rfl, rfl, rfl, htext⟩
        · exact .inr hfails

/-- The ways in which a run for a request ends. -/
inductive Ends (limits : Config.Limits) (r : Request) (env : Environment) : Ending → Prop
  | refused (refusal : Config.Refusal) (h : Config.IsReported limits (env.read r.configPath)) :
      Ends limits r env (.refused refusal)
  | failed {ending : Ending} (h : ending.Fails)
      (hreported : ¬ Config.IsReported limits (env.read r.configPath)) : Ends limits r env ending
  | answered {o : Options} {source : Text} {name : Option Text} {columns : Option Int} {text : Text}
      (houtput : o.output = Request.pathOf r.output)
      (h : Answers limits r env source name columns text) (stderr : Text) :
      Ends limits r env (.done (written o stderr (text ++ ['\n'])))

/-- A run for a request that comes to a text writes it. The settings are those of the accepted file,
and what an answer is made of is what the run finds. -/
theorem exists_run_eq_done {args : List Text} {name : Option Text} {columns : Option Int}
    {text : Text} (hparse : Request.parse args = .ok r)
    (h : Answers limits r env source name columns text) :
    ∃ o stderr, o.output = Request.pathOf r.output ∧
      run args env limits = .done (written o stderr (text ++ ['\n'])) := by
  let s : Config.Settings :=
    ⟨Config.requested? limits (env.read r.configPath),
      Config.columns? limits (env.read r.configPath)⟩
  have hsettings : Options.settingsOf limits r.configPath (env.read r.configPath) = .ok s :=
    (Options.taken_settingsOf limits r.configPath (env.read r.configPath)).eq_ok h.accepted
  obtain ⟨stderr, hexecute⟩ := exists_execute_eq_done (sourceOf_eq_ok_iff.mpr h.reads)
    (sectionOf_merge_eq_ok_iff.mpr ⟨name, h.chosen_section, rfl⟩)
    (widthOf_merge_eq_ok_iff (s := s) |>.mpr ⟨columns, h.chosen_columns, rfl⟩) h.render_eq
  refine ⟨Options.merge r s, stderr, rfl, ?_⟩
  simp only [run, hparse, Options.resolve, hsettings]
  exact hexecute

/-- **How a run for a request ends.**

**Proof sketch.** By how the configuration file is taken. If it is accepted, the flags come over its
settings, and the run comes to a text or fails. If it is refused, the run is refused or aborted, as
the value can be shown or not. -/
theorem ends_run {args : List Text} (hparse : Request.parse args = .ok r) (env : Environment)
    (limits : Config.Limits) :
    Ends limits r env (run args env limits) := by
  -- the file is taken before the flags are looked at
  have htaken := Options.taken_settingsOf limits r.configPath (env.read r.configPath)
  simp only [run, hparse, Options.resolve]
  generalize Options.settingsOf limits r.configPath (env.read r.configPath) = settings at htaken
  cases htaken with
  | accepted haccepted =>
    let s : Config.Settings :=
      ⟨Config.requested? limits (env.read r.configPath),
        Config.columns? limits (env.read r.configPath)⟩
    change Ends limits r env (execute (Options.merge r s) env)
    rcases execute_cases (Options.merge r s) env with
      ⟨source, requested, width, text, hsource, hsection, hwidth, htext⟩ | hfails
    · obtain ⟨stderr, hexecute⟩ := exists_execute_eq_done hsource hsection hwidth htext
      obtain ⟨name, hname, rfl⟩ := sectionOf_merge_eq_ok_iff.mp hsection
      obtain ⟨columns, hcolumns, rfl⟩ := widthOf_merge_eq_ok_iff.mp hwidth
      rw [hexecute]
      exact .answered rfl ⟨haccepted, sourceOf_eq_ok_iff.mp hsource, hname, hcolumns, htext⟩ stderr
    · exact .failed hfails haccepted.not_isReported
  | @refused refusal _ hreported =>
    cases hrefusal : refusal.isReported with
    | true =>
      simp only [bind, Except.bind, hrefusal, if_true]
      exact .refused refusal (hreported.mp hrefusal)
    | false =>
      simp only [bind, Except.bind, hrefusal, Bool.false_eq_true, if_false]
      exact .failed (.aborted _) fun h => by simp [hreported.mpr h] at hrefusal
  | unreadable _ hreported => exact .failed (.aborted _) hreported

end Command

end Manpage

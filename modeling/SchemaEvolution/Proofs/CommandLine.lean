import SchemaEvolution.Command.Arguments
import SchemaEvolution.Proofs.Failure

/-!
# How lines are read

The options that go with every command may stand before and behind its name, and behind two hyphens
every argument is a place. Whether such a line is understood depends on its options and on the path
of its schema, but not on its command: either none of the three commands is read, or all of them
are, with the same settings.

## Main definitions

* `CommandLine.GlobalOption`: the options that go with every command
* `CommandLine.line`: a line with its places behind two hyphens

## Main results

* `CommandLine.read_line`: what a line says, option by option
* `CommandLine.read_lines`: the three commands are read alike
-/

namespace SchemaEvolution.CommandLine

/-! ## Lines -/

/-- How the name of a command is written. -/
def CommandName.word : CommandName → String
  | .compile => "compile"
  | .check => "check"
  | .history => "history"

/-- **The options that go with every command.** -/
inductive GlobalOption
  | output (format : OutputFormat)
  | quiet
  | verbose
  deriving DecidableEq, Repr

namespace GlobalOption

/-- How a format is written. -/
def formatWord : OutputFormat → String
  | .text => "text"
  | .json => "json"

/-- How an option is written. -/
def arguments : GlobalOption → List String
  | output format => ["--output", formatWord format]
  | quiet => ["--quiet"]
  | verbose => ["-v"]

/-- What an option says. -/
def onto (level : Level) : GlobalOption → Except Stop Level
  | output format => level.set .output (formatWord format)
  | quiet => level.turn .quiet
  | verbose => level.turn .verbose

end GlobalOption

/-- The option for the number of workers, if there is one. -/
def workersArguments : Option String → List String
  | none => []
  | some text => ["--workers", text]

/-- **A line with its places behind two hyphens.** -/
def line (before after : List GlobalOption) (name : CommandName) (workers : Option String)
    (places : List String) : List String :=
  before.flatMap GlobalOption.arguments ++ name.word ::
    (after.flatMap GlobalOption.arguments ++ (workersArguments workers ++ "--" :: places))

/-! ## Option by option -/

section Arguments

variable (command : Option CommandName) (rest : List String) (level : Level)

theorem ofText_output : Argument.ofText "--output" = .long "output" none := by decide

theorem ofText_quiet : Argument.ofText "--quiet" = .long "quiet" none := by decide

theorem ofText_verbose : Argument.ofText "-v" = .letters ['v'] := by decide

theorem ofText_workers : Argument.ofText "--workers" = .long "workers" none := by decide

theorem ofText_divider : Argument.ofText "--" = .divider := by decide

theorem longOption_output (format : OutputFormat) :
    longOption command "output" none (GlobalOption.formatWord format :: rest) level =
      level.set .output (GlobalOption.formatWord format) >>= fun level => .ok (level, rest) := by
  cases format <;> rfl

theorem longOption_quiet : longOption command "quiet" none rest level =
    level.turn .quiet >>= fun level => .ok (level, rest) := rfl

theorem turnAll_verbose : level.turnAll command ['v'] = level.turn .verbose := by
  have hturn : level.turnAll command ['v'] = level.turn .verbose >>= Except.ok := rfl
  rw [hturn]
  cases level.turn .verbose <;> rfl

end Arguments

section Options

variable {name : CommandName} {rest : List String} {level : Level} {bound : Nat}

/-- In front of the name of a command an option is taken from the line. -/
theorem readLine_option (option : GlobalOption) :
    readLine (bound + 1) (option.arguments ++ rest) level =
      option.onto level >>= readLine bound rest := by
  cases option with
  | output format =>
    simp only [GlobalOption.arguments, List.cons_append, readLine, ofText_output, List.nil_append,
      longOption_output, bind_assoc, ok_bind, GlobalOption.onto]
  | quiet =>
    simp only [GlobalOption.arguments, List.cons_append, readLine, ofText_quiet, List.nil_append,
      longOption_quiet, bind_assoc, ok_bind, GlobalOption.onto]
  | verbose =>
    simp only [GlobalOption.arguments, List.cons_append, readLine, ofText_verbose,
      List.nil_append, turnAll_verbose, GlobalOption.onto]

/-- Behind the name of a command an option is taken from the line. -/
theorem readCommand_option (option : GlobalOption) :
    readCommand name (bound + 1) (option.arguments ++ rest) level =
      option.onto level >>= readCommand name bound rest := by
  cases option with
  | output format =>
    simp only [GlobalOption.arguments, List.cons_append, readCommand, ofText_output,
      List.nil_append, longOption_output, bind_assoc, ok_bind, GlobalOption.onto]
  | quiet =>
    simp only [GlobalOption.arguments, List.cons_append, readCommand, ofText_quiet,
      List.nil_append, longOption_quiet, bind_assoc, ok_bind, GlobalOption.onto]
  | verbose =>
    simp only [GlobalOption.arguments, List.cons_append, readCommand, ofText_verbose,
      List.nil_append, turnAll_verbose, GlobalOption.onto]

theorem length_le_arguments (options : List GlobalOption) :
    options.length ≤ (options.flatMap GlobalOption.arguments).length := by
  induction options with
  | nil => exact Nat.le_refl 0
  | cons option rest ih =>
    have hpos : 0 < option.arguments.length := by cases option <;> exact Nat.succ_pos _
    rw [List.flatMap_cons, List.length_append, List.length_cons]
    omega

/-- A part of the line that takes one option takes all that there are. -/
theorem read_options {α : Type} {read : Nat → List String → Level → Except Stop α}
    (hread : ∀ option bound rest level,
      read (bound + 1) (GlobalOption.arguments option ++ rest) level =
        option.onto level >>= read bound rest)
    (options : List GlobalOption) (h : options.length ≤ bound) :
    read bound (options.flatMap GlobalOption.arguments ++ rest) level =
      options.foldlM GlobalOption.onto level >>= read (bound - options.length) rest := by
  induction options generalizing bound level with
  | nil => rfl
  | cons option options ih =>
    cases bound with
    | zero => exact absurd h (Nat.not_succ_le_zero _)
    | succ bound =>
      simp only [List.flatMap_cons, List.append_assoc, hread, List.foldlM_cons, bind_assoc,
        List.length_cons, Nat.add_sub_add_right]
      exact bind_congr fun level => ih (Nat.le_of_succ_le_succ h)

/-- A number of workers is written without a hyphen. -/
theorem ofText_of_workers {text : String} {n : Nat} (h : workers? text = some n) :
    Argument.ofText text = .plain text := by
  unfold Argument.ofText
  cases hchars : text.toList with
  | nil => rfl
  | cons c rest =>
    by_cases hc : c = '-'
    · subst hc
      rw [workers?, hchars] at h
      simp [show Char.isDigit '-' = false by decide] at h
    · cases rest with
      | nil => simp
      | cons c' rest' => simp [hc]

/-- What stands behind two hyphens is all places. -/
theorem readCommand_divider (places : List String) :
    readCommand name (bound + 1) ("--" :: places) level =
      places.foldlM (Level.place name) level >>= Level.settle := by
  simp only [readCommand, ofText_divider]

theorem readCommand_workers {text : String} {n : Nat} (htext : workers? text = some n) :
    readCommand .compile (bound + 1) ("--workers" :: text :: rest) level =
      level.set .workers text >>= readCommand .compile bound rest := by
  have hoption : longOption (some .compile) "workers" none (text :: rest) level =
      level.set .workers text >>= fun level => .ok (level, rest) := by
    have hswitch : Switch.ofName? (some .compile) "workers" = none := rfl
    have hsetting : Setting.ofName? (some .compile) "workers" = some .workers := rfl
    simp only [longOption, hswitch, hsetting, Level.demand, ok_bind, ofText_of_workers htext]
    rfl
  simp only [readCommand, ofText_workers, hoption, bind_assoc, ok_bind]

/-- What the option for the number of workers says. -/
def workersOnto (level : Level) : Option String → Except Stop Level
  | none => .ok level
  | some text => level.set .workers text

/-- What stands behind the name of a command. -/
theorem readCommand_line (after : List GlobalOption) {workers : Option String}
    (hworkers : ∀ text, workers = some text → name = .compile ∧ ∃ n, workers? text = some n)
    (places : List String)
    (hbound : after.length + (workersArguments workers).length < bound) :
    readCommand name bound (after.flatMap GlobalOption.arguments ++
      (workersArguments workers ++ "--" :: places)) {} = (do
        let inner ← after.foldlM GlobalOption.onto {}
        let inner ← workersOnto inner workers
        let inner ← places.foldlM (Level.place name) inner
        inner.settle) := by
  rw [read_options (fun _ _ _ _ => readCommand_option _) after (by omega)]
  refine bind_congr fun inner => ?_
  cases workers with
  | none =>
    obtain ⟨rest, hrest⟩ : ∃ rest, bound - after.length = rest + 1 :=
      ⟨bound - after.length - 1, by omega⟩
    rw [hrest]
    exact readCommand_divider places
  | some text =>
    obtain ⟨rfl, n, htext⟩ := hworkers text rfl
    have hbound : after.length + 2 < bound := hbound
    obtain ⟨rest, hrest⟩ : ∃ rest, bound - after.length = rest + 1 + 1 :=
      ⟨bound - after.length - 2, by omega⟩
    rw [hrest]
    refine (readCommand_workers htext).trans (bind_congr fun inner => ?_)
    exact readCommand_divider places

theorem readLine_name :
    readLine (bound + 1) (name.word :: rest) level = (do
      let inner ← readCommand name (rest.length + 1) rest {}
      let command ← Level.demand (inner.command? name)
      let outer ← level.settle
      return combine outer inner command) := by
  cases name <;> rfl

/-- **What a line says**, option by option and place by place. -/
theorem read_line (before after : List GlobalOption) (name : CommandName) (workers : Option String)
    (hworkers : ∀ text, workers = some text → name = .compile ∧ ∃ n, workers? text = some n)
    (places : List String) : read (line before after name workers places) = (do
      let outer ← before.foldlM GlobalOption.onto {}
      let inner ← after.foldlM GlobalOption.onto {}
      let inner ← workersOnto inner workers
      let inner ← places.foldlM (Level.place name) inner
      let inner ← inner.settle
      let command ← Level.demand (inner.command? name)
      let outer ← outer.settle
      return combine outer inner command) := by
  have hbefore := length_le_arguments before
  have hafter := length_le_arguments after
  obtain ⟨bound, hbound⟩ : ∃ bound,
      (line before after name workers places).length + 1 - before.length = bound + 1 := by
    refine ⟨(line before after name workers places).length - before.length, ?_⟩
    rw [line, List.length_append]
    omega
  rw [read, line, read_options (fun _ _ _ _ => readLine_option _) before
    (by rw [List.length_append]; omega), ← line, hbound]
  refine bind_congr fun outer => ?_
  rw [readLine_name, readCommand_line after hworkers places
    (by simp only [List.length_append, List.length_cons]; omega)]
  simp only [bind_assoc]

end Options

/-! ## All commands are read alike -/

/-- The level says nothing but what every command understands. -/
structure Level.IsCommon (level : Level) : Prop where
  out : level.out = none
  workers : level.workers = none
  places : level.places = []
  pending : ∀ setting text, level.pending = some (setting, text) → setting = .output

variable {level settled : Level}

/-- When all values have been looked at, a common level has an output and settings of the log. -/
theorem Level.IsCommon.exists_settled (h : level.IsCommon) (hsettle : level.settle = .ok settled) :
    ∃ output quiet verbose,
      settled = { output := output, quiet := quiet, verbose := verbose } := by
  obtain ⟨output, quiet, verbose, out, workers, places, pending⟩ := level
  obtain ⟨rfl, rfl, rfl, hpending⟩ := h
  cases pending with
  | none => exact ⟨output, quiet, verbose, (Except.ok.inj hsettle).symm⟩
  | some value =>
    obtain ⟨setting, text⟩ := value
    obtain rfl := hpending setting text rfl
    obtain ⟨first, -, hsettled⟩ := bind_eq_ok.mp hsettle
    exact ⟨first, quiet, verbose, (Except.ok.inj hsettled).symm⟩

theorem Level.isCommon_settled (output : Option OutputFormat) (quiet : Bool) (verbose : Nat) :
    Level.IsCommon { output := output, quiet := quiet, verbose := verbose } :=
  ⟨rfl, rfl, rfl, nofun⟩

/-! ### Faults -/

theorem Level.settle_error {stop : Stop} (h : level.settle = .error stop) : stop = .usage := by
  have hfirst : ∀ {α : Type} {before now : Option α}, first before now = .error stop →
      stop = .usage := by
    intro α before now h
    unfold first at h
    split at h
    · exact (Except.error.inj h).symm
    · cases h
  unfold settle at h
  split at h
  · cases h
  · dsimp only at h
    split at h
    all_goals
      rcases bind_eq_error.mp h with h | ⟨_, -, h⟩
      · exact hfirst h
      · cases h

theorem GlobalOption.onto_error {option : GlobalOption} {stop : Stop}
    (h : option.onto level = .error stop) : stop = .usage := by
  cases option with
  | output format =>
    rcases bind_eq_error.mp h with h | ⟨_, -, h⟩
    · exact Level.settle_error h
    · cases h
  | quiet =>
    rcases bind_eq_error.mp h with h | ⟨settled, -, h⟩
    · exact Level.settle_error h
    · dsimp only at h
      split at h
      · exact (Except.error.inj h).symm
      · cases h
  | verbose =>
    rcases bind_eq_error.mp h with h | ⟨_, -, h⟩
    · exact Level.settle_error h
    · cases h

theorem GlobalOption.foldlM_error {options : List GlobalOption} {stop : Stop}
    (h : options.foldlM onto level = .error stop) : stop = .usage := by
  induction options generalizing level with
  | nil => cases h
  | cons option rest ih =>
    rw [List.foldlM_cons] at h
    rcases bind_eq_error.mp h with h | ⟨_, -, h⟩
    · exact onto_error h
    · exact ih h

/-! ### Common levels -/

/-- A global option keeps a level common. -/
theorem GlobalOption.isCommon_onto {option : GlobalOption} {next : Level} (h : level.IsCommon)
    (honto : option.onto level = .ok next) : next.IsCommon := by
  cases option with
  | output format =>
    obtain ⟨settled, hsettle, hnext⟩ := bind_eq_ok.mp honto
    obtain ⟨output, quiet, verbose, rfl⟩ := h.exists_settled hsettle
    obtain rfl := Except.ok.inj hnext
    refine ⟨rfl, rfl, rfl, fun setting text hpending => ?_⟩
    exact (Prod.mk.inj (Option.some.inj hpending)).1.symm
  | quiet =>
    obtain ⟨settled, hsettle, hnext⟩ := bind_eq_ok.mp honto
    obtain ⟨output, quiet, verbose, rfl⟩ := h.exists_settled hsettle
    dsimp only at hnext
    split at hnext
    · cases hnext
    · obtain rfl := Except.ok.inj hnext
      exact Level.isCommon_settled output true verbose
  | verbose =>
    obtain ⟨settled, hsettle, hnext⟩ := bind_eq_ok.mp honto
    obtain ⟨output, quiet, verbose, rfl⟩ := h.exists_settled hsettle
    obtain rfl := Except.ok.inj hnext
    exact Level.isCommon_settled output quiet _

theorem GlobalOption.isCommon_foldlM {options : List GlobalOption} {next : Level}
    (h : level.IsCommon) (hfold : options.foldlM onto level = .ok next) : next.IsCommon := by
  induction options generalizing level with
  | nil =>
    obtain rfl := Except.ok.inj hfold
    exact h
  | cons option rest ih =>
    rw [List.foldlM_cons] at hfold
    obtain ⟨middle, honto, hfold⟩ := bind_eq_ok.mp hfold
    exact ih (isCommon_onto h honto) hfold

/-- A fault in the value that is looked at first is met at the first place. -/
theorem Level.place_of_settle_error {stop : Stop} (hsettle : level.settle = .error stop)
    (name : CommandName) (config : String) : level.place name config = .error stop := by
  rw [place, hsettle]
  rfl

/-- The same fault is met at the option for the number of workers, if there is one. -/
theorem workersOnto_of_settle_error {stop : Stop} (hsettle : level.settle = .error stop)
    (text : Option String) (config : String) :
    (workersOnto level text >>= fun level => level.place .compile config) = .error stop := by
  cases text with
  | none => exact Level.place_of_settle_error hsettle .compile config
  | some text =>
    rw [workersOnto, Level.set, hsettle]
    rfl

section Places

variable {output : Option OutputFormat} {quiet : Bool} {verbose : Nat} {workers : Option Nat}

/-- The first place, which is the file of the schema. -/
theorem Level.place_of_settle (name : CommandName) (config : String) (hsettle : level.settle =
    .ok { output := output, quiet := quiet, verbose := verbose, workers := workers }) :
    level.place name config = if config = "" then .error .usage else
      .ok { output := output, quiet := quiet, verbose := verbose, workers := workers,
            places := [config] } := by
  have hcount : ¬name.placeCount ≤ 0 := by cases name <;> decide
  rw [place, hsettle, ok_bind]
  by_cases hconfig : config = ""
  · simp [hcount, hconfig]
    rfl
  · simp [hcount, hconfig]
    rfl

/-- The number of workers is looked at when the file of the schema is met. -/
theorem exists_workersOnto
    (hsettle : level.settle = .ok { output := output, quiet := quiet, verbose := verbose })
    {text : Option String} (htext : ∀ raw, text = some raw → ∃ n, workers? raw = some n) :
    ∃ next, workersOnto level text = .ok next ∧ next.settle = .ok
      { output := output, quiet := quiet, verbose := verbose, workers := text.bind workers? } := by
  cases text with
  | none => exact ⟨level, rfl, hsettle⟩
  | some raw =>
    obtain ⟨n, hn⟩ := htext raw rfl
    refine ⟨{ output := output, quiet := quiet, verbose := verbose,
              pending := some (.workers, raw) }, ?_, ?_⟩
    · rw [workersOnto, Level.set, hsettle]
      rfl
    · simp only [Level.settle, Option.bind_some, hn]
      rfl

end Places

/-- **All commands are read alike**: the same options come before and behind their names, and the
same file behind the hyphens. Either no line is understood, or all are, with the same settings. -/
theorem read_lines (before after : List GlobalOption) (config type : String)
    {workers : Option String}
    (hworkers : ∀ text, workers = some text → ∃ n, workers? text = some n) :
    (read (line before after .check none [config]) = .error .usage ∧
      read (line before after .compile workers [config]) = .error .usage ∧
        read (line before after .history none [config, type]) = .error .usage) ∨
    ∃ output quiet verbose,
      read (line before after .check none [config]) =
        .ok ⟨output, quiet, verbose, .check config⟩ ∧
      read (line before after .compile workers [config]) =
        .ok ⟨output, quiet, verbose, .compile config none (workers.bind workers?)⟩ ∧
      read (line before after .history none [config, type]) =
        .ok ⟨output, quiet, verbose, .history config type⟩ := by
  simp only [read_line before after .check none nofun, read_line before after .history none nofun,
    read_line before after .compile workers fun text htext => ⟨rfl, hworkers text htext⟩]
  cases houter : before.foldlM GlobalOption.onto {} with
  | error stop =>
    obtain rfl := GlobalOption.foldlM_error houter
    exact .inl ⟨rfl, rfl, rfl⟩
  | ok outer =>
    cases hinner : after.foldlM GlobalOption.onto {} with
    | error stop =>
      obtain rfl := GlobalOption.foldlM_error hinner
      exact .inl ⟨rfl, rfl, rfl⟩
    | ok inner =>
      have hcommon : inner.IsCommon :=
        GlobalOption.isCommon_foldlM (Level.isCommon_settled none false 0) hinner
      simp only [ok_bind, List.foldlM_cons, List.foldlM_nil, bind_pure]
      cases hsettle : inner.settle with
      | error stop =>
        obtain rfl := Level.settle_error hsettle
        have hplace := Level.place_of_settle_error hsettle
        refine .inl ⟨?_, ?_, ?_⟩
        · rw [workersOnto, ok_bind, hplace]
          rfl
        · rw [← bind_assoc, workersOnto_of_settle_error hsettle]
          rfl
        · rw [workersOnto, ok_bind, hplace]
          rfl
      | ok settled =>
        obtain ⟨output, quiet, verbose, rfl⟩ := hcommon.exists_settled hsettle
        obtain ⟨next, hnext, hsettleNext⟩ := exists_workersOnto hsettle hworkers
        rw [hnext]
        simp only [workersOnto, ok_bind, Level.place_of_settle _ config hsettle,
          Level.place_of_settle _ config hsettleNext]
        by_cases hconfig : config = ""
        · simp only [if_pos hconfig]
          exact .inl ⟨rfl, rfl, rfl⟩
        · simp only [if_neg hconfig]
          cases hsettled : outer.settle with
          | error stop =>
            obtain rfl := Level.settle_error hsettled
            exact .inl ⟨rfl, rfl, rfl⟩
          | ok outer => exact .inr ⟨_, _, _, rfl, rfl, rfl⟩

end SchemaEvolution.CommandLine

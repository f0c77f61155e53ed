import SchemaEvolution.Text.Characters

/-!
# Commands, and how they are spelled

The arguments of a command line are read from left to right. Before the name of the command stand
options that go with every command; behind it they may stand too, with those of the command and its
places. Behind two hyphens alone every argument is a place.

An option's value is looked at when the next option or the end of its part of the line is reached,
so a request for help or for the version is heard before a fault that comes later.

## Main definitions

* `Command`: to compile a schema, to check it, or to show the history of one of its types
* `Invocation`: a command with the settings of its output
* `CommandLine.Argument`: what an argument looks like
* `CommandLine.CommandName`, `CommandLine.Setting`, `CommandLine.Switch`: the names that may stand
  on the command line
* `CommandLine.Level`: what one part of the line has said so far
* `CommandLine.Stop`: why no command comes of a line
* `CommandLine.read`: the invocation that arguments spell
-/

namespace SchemaEvolution

/-- How results and faults are written. -/
inductive OutputFormat where
  | text
  | json
  deriving DecidableEq, Repr

/-- **What is asked for.** -/
inductive Command where
  /-- To write the interchange document of a schema, to a file if one is named. -/
  | compile (config : String) (out : Option String) (workers : Option Nat)
  /-- To report what a schema has. -/
  | check (config : String)
  /-- To show the versions of one type and the upgrades between them. -/
  | history (config type : String)
  deriving DecidableEq, Repr

/-- **A command with the settings of its output.** -/
structure Invocation where
  output : OutputFormat
  /-- Whether what is not essential stays unwritten. -/
  quiet : Bool
  /-- How much is asked of the log, up to 255. -/
  verbose : Nat
  command : Command
  deriving DecidableEq, Repr

namespace CommandLine

/-! ## Arguments -/

/-- **What an argument looks like.** -/
inductive Argument where
  /-- A name, a value or a place; a hyphen alone is one too. -/
  | plain (text : String)
  /-- Two hyphens alone. -/
  | divider
  /-- Two hyphens and a name, with or without a value behind an equals sign. -/
  | long (name : String) (value : Option String)
  /-- One hyphen and letters. -/
  | letters (flags : List Char)
  deriving DecidableEq, Repr

/-- The argument of a text. -/
def Argument.ofText (text : String) : Argument :=
  match text.toList with
  | ['-', '-'] => .divider
  | '-' :: '-' :: rest =>
    let name := String.ofList (rest.takeWhile (· != '='))
    match rest.dropWhile (· != '=') with
    | [] => .long name none
    | _ :: value => .long name (some (String.ofList value))
  | '-' :: flag :: flags => .letters (flag :: flags)
  | _ => .plain text

/-! ## Names -/

/-- The names of commands. -/
inductive CommandName where
  | compile
  | check
  | history
  deriving DecidableEq, Repr

/-- The command of a name. -/
def CommandName.ofText? : String → Option CommandName
  | "compile" => some .compile
  | "check" => some .check
  | "history" => some .history
  | _ => none

/-- How many places a command has. -/
def CommandName.placeCount : CommandName → Nat
  | .compile => 1
  | .check => 1
  | .history => 2

/-- Options with a value. -/
inductive Setting where
  | output
  | out
  | workers
  deriving DecidableEq, Repr

/-- Options without a value. -/
inductive Switch where
  | quiet
  | verbose
  | help
  | version
  deriving DecidableEq, Repr

/-- The option with a value that a name means. Only to compile a schema has options of its
own. -/
def Setting.ofName? (command : Option CommandName) : String → Option Setting
  | "output" => some .output
  | "out" => if command = some .compile then some .out else none
  | "workers" => if command = some .compile then some .workers else none
  | _ => none

/-- The option without a value that a name means. The version is only told before the name
of a command. -/
def Switch.ofName? (command : Option CommandName) : String → Option Switch
  | "quiet" => some .quiet
  | "verbose" => some .verbose
  | "help" => some .help
  | "version" => if command = none then some .version else none
  | _ => none

/-- The option that a letter means. -/
def Switch.ofLetter? (command : Option CommandName) : Char → Option Switch
  | 'v' => some .verbose
  | 'h' => some .help
  | 'V' => if command = none then some .version else none
  | _ => none

/-! ## Values -/

/-- The format of a name. -/
def outputFormat? : String → Option OutputFormat
  | "text" => some .text
  | "json" => some .json
  | _ => none

/-- The number of workers: decimal digits, with or without a plus sign, that fit in 64 bits. -/
def workers? (text : String) : Option Nat :=
  let digits :=
    match text.toList with
    | '+' :: rest => rest
    | chars => chars
  if digits.isEmpty || !digits.all Char.isDigit then none
  else
    let value := Text.decimalValue digits
    if Word.fits 64 value then some value else none

/-! ## One part of the line -/

/-- **Why no command comes of a line.** -/
inductive Stop where
  /-- The line cannot be understood. -/
  | usage
  | help
  | version
  deriving DecidableEq, Repr

/-- **What one part of the line has said so far.** -/
structure Level where
  output : Option OutputFormat := none
  quiet : Bool := false
  /-- How often more is asked of the log. -/
  verbose : Nat := 0
  out : Option String := none
  workers : Option Nat := none
  /-- The places, last first. -/
  places : List String := []
  /-- The option that was met last, with a value that has not been looked at. -/
  pending : Option (Setting × String) := none
  deriving DecidableEq, Repr

namespace Level

/-- Something that the line cannot do without. -/
def demand {α : Type} : Option α → Except Stop α
  | some value => .ok value
  | none => .error .usage

/-- The first value of an option; it may have no other. -/
def first {α : Type} (before now : Option α) : Except Stop (Option α) :=
  if before.isSome || now.isNone then .error .usage else .ok now

/-- Looks at the value of the option that was met last. -/
def settle (level : Level) : Except Stop Level :=
  match level.pending with
  | none => .ok level
  | some (setting, text) => do
    let settled := { level with pending := none }
    match setting with
    | .output => return { settled with output := ← first level.output (outputFormat? text) }
    | .out =>
      let out := if text = "" then none else some text
      return { settled with out := ← first level.out out }
    | .workers => return { settled with workers := ← first level.workers (workers? text) }

/-- An option with its value. -/
def set (level : Level) (setting : Setting) (text : String) : Except Stop Level := do
  return { ← level.settle with pending := some (setting, text) }

/-- An option without value. -/
def turn (level : Level) (switch : Switch) : Except Stop Level := do
  let level ← level.settle
  match switch with
  | .quiet => if level.quiet then throw .usage else return { level with quiet := true }
  | .verbose => return { level with verbose := min 255 (level.verbose + 1) }
  | .help => throw .help
  | .version => throw .version

/-- Letters behind one hyphen, each of them an option. -/
def turnAll (command : Option CommandName) : List Char → Level → Except Stop Level
  | [], level => .ok level
  | flag :: flags, level => do
    let switch ← demand (Switch.ofLetter? command flag)
    turnAll command flags (← level.turn switch)

/-- A place. The file of the schema has to have a name. -/
def place (command : CommandName) (level : Level) (text : String) : Except Stop Level := do
  let level ← level.settle
  if command.placeCount ≤ level.places.length then throw .usage
  if level.places.isEmpty && text = "" then throw .usage
  return { level with places := text :: level.places }

end Level

/-! ## The line -/

section Options

variable (command : Option CommandName)

/-- An option by name, and the arguments behind it and its value. -/
def longOption (name : String) (value : Option String) (rest : List String) (level : Level) :
    Except Stop (Level × List String) :=
  match Switch.ofName? command name, value with
  | some switch, none => do return (← level.turn switch, rest)
  | some _, some _ => .error .usage
  | none, _ => do
    let setting ← Level.demand (Setting.ofName? command name)
    match value, rest with
    | some text, _ => do return (← (← level.set setting text).settle, rest)
    | none, argument :: rest =>
      match Argument.ofText argument with
      | .plain text => do return (← level.set setting text, rest)
      | _ => throw .usage
    | none, [] => throw .usage

end Options

/-- The arguments behind the name of a command, at most `bound` of them. -/
def readCommand (command : CommandName) : (bound : Nat) → List String → Level → Except Stop Level
  | 0, _, _ => .error .usage
  | _, [], level => level.settle
  | bound + 1, argument :: rest, level =>
    match Argument.ofText argument with
    | .plain text => do readCommand command bound rest (← level.place command text)
    | .divider => do (← rest.foldlM (Level.place command) level).settle
    | .long name value => do
      let (level, rest) ← longOption (some command) name value rest level
      readCommand command bound rest level
    | .letters flags => do
      readCommand command bound rest (← level.turnAll (some command) flags)

/-- What a command and its part of the line ask for. -/
def Level.command? (level : Level) : CommandName → Option Command
  | .compile =>
    match level.places with
    | [config] => some (.compile config level.out level.workers)
    | _ => none
  | .check =>
    match level.places with
    | [config] => some (.check config)
    | _ => none
  | .history =>
    match level.places with
    | [type, config] => some (.history config type)
    | _ => none

/-- What the two parts of a line say together; what stands behind the name of the command counts
first. -/
def combine (outer inner : Level) (command : Command) : Invocation where
  output := (inner.output <|> outer.output).getD .text
  quiet := outer.quiet || inner.quiet
  verbose := if inner.verbose = 0 then outer.verbose else inner.verbose
  command := command

/-- The arguments from the first on, at most `bound` of them. -/
def readLine : (bound : Nat) → List String → Level → Except Stop Invocation
  | 0, _, _ => .error .usage
  | _, [], _ => .error .usage
  | bound + 1, argument :: rest, level =>
    match Argument.ofText argument with
    | .plain "help" =>
      match rest with
      | [] => .error .help
      | [topic] =>
        if topic = "help" || (CommandName.ofText? topic).isSome then .error .help
        else .error .usage
      | _ => .error .usage
    | .plain text => do
      let name ← Level.demand (CommandName.ofText? text)
      let inner ← readCommand name (rest.length + 1) rest {}
      let command ← Level.demand (inner.command? name)
      let outer ← level.settle
      return combine outer inner command
    | .divider => .error .usage
    | .long name value => do
      let (level, rest) ← longOption none name value rest level
      readLine bound rest level
    | .letters flags => do
      readLine bound rest (← level.turnAll none flags)

/-- **The invocation that arguments spell.** -/
def read (arguments : List String) : Except Stop Invocation :=
  readLine (arguments.length + 1) arguments {}

end CommandLine

end SchemaEvolution

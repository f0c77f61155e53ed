import SchemaEvolution.Command.Files
import SchemaEvolution.Command.Log
import SchemaEvolution.Command.TypeHistory
import SchemaEvolution.Config.Decode

/-!
# Carrying out commands

A command reads its schema, compiles it and answers. What it does not decide itself is given: the
access to files, and the *surroundings* of the run. These have the words of the readers of lines and
of documents, where those are words for people; what a line means, and whether a text holds a
schema, is settled here.

## Main definitions

* `Surroundings`: what a run depends on besides its line and its files
* `Response`: the exit code, what is written to the two outputs, and the log
* `Failure`, `Failure.response`: why a command fails, and what is written of it
* `Invocation.carryOut`: what an invocation does
* `respond`: what a command line does
-/

namespace SchemaEvolution

/-- **What a run depends on** besides its line and its files. -/
structure Surroundings where
  /-- What is said of a line that is not understood, where it breaks a rule of the command that it
  names or of all lines. -/
  usage : (arguments : List String) → String := fun _ => ""
  /-- What is said where a line asks for help. -/
  help : (arguments : List String) → String := fun _ => ""
  /-- What the reader of a notation says of a text that holds no schema. -/
  wording : DocumentFormat → (text : String) → DecodeFault → String :=
    fun _ _ fault => fault.message.getD ""
  /-- The events that are asked of the log whatever the line says, if any are. -/
  asked : Option (LogEvent → Bool) := none
  /-- The number of workers where the line names none. -/
  cores : Nat := 1

/-- **What comes of a command line**: the exit code and what is written. -/
structure Response where
  code : UInt8
  out : String := ""
  /-- What is written of a failure. -/
  err : String := ""
  /-- The lines of the log. They are written to the same output as failures, and come first. -/
  log : List LogLine := []
  deriving DecidableEq, Repr

namespace Response

/-- The response with the lines of a log. -/
def logged (response : Response) (log : List LogLine) : Response := { response with log := log }

/-- **All that is written to the output for failures**, given how a line of the log looks. -/
def stderr (look : LogLine → String) (response : Response) : String :=
  String.join (response.log.map look) ++ response.err

end Response

/-! ## Failures -/

/-- **Why a command fails.** -/
inductive Failure where
  /-- There is nobody to do the work. -/
  | noWorkers
  | cannotRead (path : String) (fault : FileFault)
  | cannotWrite (path : String) (fault : FileFault)
  /-- The file does not hold a schema, for the reason that its reader gives. -/
  | cannotDecode (path : String) (format : DocumentFormat) (reason : String)
  /-- The schema is refused. -/
  | refused (error : SchemaError)
  deriving DecidableEq, Repr

namespace Failure

/-- The name of a notation in messages. -/
def formatName : DocumentFormat → String
  | .json => "JSON"
  | .toml => "TOML"

/-- The wording of a failure. -/
def message : Failure → String
  | noWorkers => "--workers must be at least 1"
  | cannotRead path fault => s!"cannot read '{path}': {fault.text}"
  | cannotWrite path fault => s!"cannot write '{path}': {fault.text}"
  | cannotDecode path format reason =>
    path ++ ": invalid " ++ formatName format ++ " configuration: " ++ reason
  | refused error => error.message

/-- What is written of a failure. Of a schema that is refused JSON tells even if quiet is kept. -/
def report (failure : Failure) (output : OutputFormat) (quiet : Bool) : String :=
  match failure, output with
  | refused error, .json =>
    (Json.object [("category", .text error.category.name), ("message", .text error.message)]).pretty
      ++ "\n"
  | refused error, .text =>
    if quiet then "" else s!"error[{error.category.name}]: {error.message}\n"
  | failure, .json =>
    if quiet then "" else (Json.object [("error", .text failure.message)]).pretty ++ "\n"
  | failure, .text => if quiet then "" else failure.message ++ "\n"

/-- The response to a failure. -/
def response (failure : Failure) (invocation : Invocation) : Response :=
  { code := 1, err := failure.report invocation.output invocation.quiet }

end Failure

/-! ## Commands -/

namespace Invocation

/-- The compilation of a schema that was read from a file. -/
def compilationOf (around : Surroundings) (path text : String) (workers : Nat) :
    Except Failure Compilation :=
  let format := DocumentFormat.ofPath path
  match Config.ofText format text with
  | .error fault => .error (.cannotDecode path format (around.wording format text fault))
  | .ok config => (config.compile workers).mapError .refused

/-- What is told while a schema that was read from a file is compiled. -/
def eventsOf (path text : String) (workers : Nat) : List LogEvent :=
  match Config.ofText (DocumentFormat.ofPath path) text with
  | .error _ => []
  | .ok config => config.events workers

/-- What is written when the document went to a file. -/
def written (invocation : Invocation) (path : String) : String :=
  if invocation.quiet then ""
  else
    match invocation.output with
    | .text => s!"wrote {path}\n"
    | .json => (Json.object [("written", .text path)]).compact ++ "\n"

/-- What is written of a result that may be kept quiet as text. -/
def shown (invocation : Invocation) (text : String) (json : Json) : Response :=
  match invocation.output with
  | .text => { code := 0, out := if invocation.quiet then "" else text }
  | .json => { code := 0, out := json.pretty ++ "\n" }

section Effects

variable {m : Type → Type} [Monad m] (files : FileAccess m) (around : Surroundings)

/-- Reads and compiles a schema and does something with it. What is told meanwhile comes into the
log, whatever becomes of it. -/
def withCompiled (invocation : Invocation) (path : String) (workers : Nat)
    (use : Compilation → m Response) : m Response := do
  match ← files.read path with
  | .error fault => return (Failure.cannotRead path fault).response invocation
  | .ok text =>
    let log := invocation.logSettings.lines around.asked (eventsOf path text workers)
    match compilationOf around path text workers with
    | .error failure => return (failure.response invocation).logged log
    | .ok compilation => return (← use compilation).logged log

/-- Writes the interchange document. -/
def emit (invocation : Invocation) (document : String) : Option String → m Response
  | none => return { code := 0, out := document }
  | some path => do
    match ← files.write path document with
    | .error fault => return (Failure.cannotWrite path fault).response invocation
    | .ok () => return { code := 0, out := invocation.written path }

/-- **What an invocation does.** -/
def carryOut (invocation : Invocation) : m Response :=
  match invocation.command with
  | .compile config out workers =>
    if workers = some 0 then return Failure.noWorkers.response invocation
    else
      invocation.withCompiled files around config (workers.getD around.cores) fun compilation =>
        emit files invocation (compilation.json.pretty ++ "\n") out
  | .check config =>
    invocation.withCompiled files around config around.cores fun compilation =>
      let summary := compilation.summary
      return invocation.shown summary.text summary.json
  | .history config type =>
    invocation.withCompiled files around config around.cores fun compilation =>
      match compilation.typeHistory type with
      | .error error => return (Failure.refused error).response invocation
      | .ok history => return invocation.shown (history.text compilation.graph) history.json

end Effects

end Invocation

/-! ## Command lines -/

/-- The program's name and version. -/
def programVersion : String := "lineage 0.1.0"

/-- The response to a line from which no command comes. -/
def CommandLine.Stop.response (around : Surroundings) (arguments : List String) :
    CommandLine.Stop → Response
  | .usage => { code := 2, err := around.usage arguments }
  | .help => { code := 0, out := around.help arguments }
  | .version => { code := 0, out := programVersion ++ "\n" }

/-- **What a command line does.** -/
def respond {m : Type → Type} [Monad m] (files : FileAccess m) (arguments : List String)
    (around : Surroundings := {}) : m Response :=
  match CommandLine.read arguments with
  | .error stop => return stop.response around arguments
  | .ok invocation => invocation.carryOut files around

end SchemaEvolution

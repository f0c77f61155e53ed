import SchemaEvolution.Command.Response

/-!
# The program

The command line over the files of the system. The words for people that the library leaves open are
plain ones here, and so is the look of the log, which tells no time of day.

## Main definitions

* `systemFiles`: access to the files of the system
* `Surroundings.plain`, `LogLine.text`: words for lines and texts that are not understood, and lines
  of the log
* `main`: the program
-/

namespace SchemaEvolution

/-- The fault that a call of the system ends with. -/
def FileFault.ofError : IO.Error → FileFault
  | .noFileOrDirectory _ code detail | .inappropriateType _ code detail
  | .permissionDenied _ code detail | .invalidArgument _ code detail
  | .resourceExhausted _ code detail | .alreadyExists _ code detail
  | .otherError code detail | .unsupportedOperation code detail
  | .hardwareFault code detail | .resourceBusy code detail => .ofSystem code detail
  | error => ⟨toString error, 0⟩

/-- Access to the files of the system. -/
def systemFiles : FileAccess IO where
  read path := do
    match ← (IO.FS.readFile path).toBaseIO with
    | .ok text => return .ok text
    | .error fault => return .error (.ofError fault)
  write path text := do
    match ← (IO.FS.writeFile path text).toBaseIO with
    | .ok _ => return .ok ()
    | .error fault => return .error (.ofError fault)

/-- How the program is used. -/
def usageText : String :=
  "Usage: lineage [--output text|json] [--quiet] [-v] <COMMAND>\n\n" ++
  "Commands:\n" ++
  "  compile <CONFIG> [--out <OUT>] [--workers <WORKERS>]\n" ++
  "  check <CONFIG>\n" ++
  "  history <CONFIG> <TYPE_NAME>\n"

/-- Surroundings with plain words. -/
def Surroundings.plain : Surroundings where
  usage _ := usageText
  help _ := usageText
  wording _ _ fault := fault.message.getD "the text is no document"

/-- The name of a level in the log. -/
def LogLevel.name : LogLevel → String
  | error => "ERROR"
  | warn => "WARN"
  | info => "INFO"
  | debug => "DEBUG"
  | trace => "TRACE"

/-- A line of the log. -/
def LogLine.text (line : LogLine) : String :=
  let level := line.event.level.name
  let fields := line.event.fields
  match line.format with
  | .json =>
    (Json.object [
      ("fields", .object (("message", .text line.event.message) ::
        fields.map fun (name, value) => (name, .text value))),
      ("level", .text level)]).compact ++ "\n"
  | .compact | .pretty =>
    let data := String.join (fields.map fun (name, value) => s!" {name}={value}")
    s!"{level} {line.event.message}{data}\n"

end SchemaEvolution

open SchemaEvolution in
/-- **The program.** -/
def main (arguments : List String) : IO UInt32 := do
  let response ← respond systemFiles arguments .plain
  IO.print response.out
  IO.eprint (response.stderr LogLine.text)
  return response.code.toUInt32

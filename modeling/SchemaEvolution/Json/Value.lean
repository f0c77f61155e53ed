/-!
# JSON values and their texts

Output is built as JSON values and written either on one line or over several. The members
of an object are written in the order in which it lists them.

## Main definitions

* `Json`: JSON values; numbers are natural
* `Json.compact`: the text on one line, without blanks
* `Json.pretty`: the text over several lines, indented by two blanks for each level
-/

namespace SchemaEvolution

/-- **A JSON value.** -/
inductive Json where
  | null
  | boolean (value : Bool)
  | number (value : Nat)
  | text (value : String)
  | array (items : List Json)
  | object (members : List (String × Json))
  deriving Inhabited

namespace Json

/-- A text, or null where there is none. -/
def ofText? : Option String → Json
  | some value => .text value
  | none => .null

/-- A number, or null where there is none. -/
def ofNumber? : Option Nat → Json
  | some value => .number value
  | none => .null

/-- An array of texts. -/
def texts (values : List String) : Json := .array (values.map .text)

/-! ## Texts -/

/-- One hexadecimal digit, in lower case. -/
def hexDigit (value : Nat) : Char := (Nat.digitChar value)

/-- How a character is written between quotes: quotes, backslashes and control characters
are escaped, everything else stands for itself. -/
def escape (c : Char) : List Char :=
  match c with
  | '"' => ['\\', '"']
  | '\\' => ['\\', '\\']
  | '\x08' => ['\\', 'b']
  | '\t' => ['\\', 't']
  | '\n' => ['\\', 'n']
  | '\x0c' => ['\\', 'f']
  | '\r' => ['\\', 'r']
  | _ =>
    if c.toNat < 0x20 then
      ['\\', 'u', '0', '0', hexDigit (c.toNat / 16), hexDigit (c.toNat % 16)]
    else [c]

/-- A text between quotes. -/
def quoted (value : String) : String :=
  "\"" ++ String.ofList (value.toList.flatMap escape) ++ "\""

/-! ## On one line -/

mutual

/-- **The text of a value on one line.** -/
def compact : Json → String
  | null => "null"
  | boolean value => if value then "true" else "false"
  | number value => toString value
  | text value => quoted value
  | array items => "[" ++ ",".intercalate (compactItems items) ++ "]"
  | object members => "\x7b" ++ ",".intercalate (compactMembers members) ++ "\x7d"

/-- The texts of items. -/
def compactItems : List Json → List String
  | [] => []
  | item :: rest => compact item :: compactItems rest

/-- The texts of members. -/
def compactMembers : List (String × Json) → List String
  | [] => []
  | (name, value) :: rest => (quoted name ++ ":" ++ compact value) :: compactMembers rest

end

/-! ## Over several lines -/

/-- Lines at a level of indentation, between two brackets; none stay on one line. -/
def block (level : Nat) (opening closing : String) (lines : List String) : String :=
  if lines.isEmpty then opening ++ closing
  else
    let indent := "".pushn ' ' (2 * level)
    opening ++ "\n" ++ ",\n".intercalate (lines.map (indent ++ "  " ++ ·)) ++ "\n" ++ indent ++
      closing

mutual

/-- The text of a value over several lines, at a level of indentation. -/
def prettyAt (level : Nat) : Json → String
  | null => "null"
  | boolean value => if value then "true" else "false"
  | number value => toString value
  | text value => quoted value
  | array items => block level "[" "]" (prettyItems (level + 1) items)
  | object members => block level "\x7b" "\x7d" (prettyMembers (level + 1) members)

/-- The texts of items. -/
def prettyItems (level : Nat) : List Json → List String
  | [] => []
  | item :: rest => prettyAt level item :: prettyItems level rest

/-- The texts of members. -/
def prettyMembers (level : Nat) : List (String × Json) → List String
  | [] => []
  | (name, value) :: rest =>
    (quoted name ++ ": " ++ prettyAt level value) :: prettyMembers level rest

end

/-- **The text of a value over several lines.** -/
def pretty (value : Json) : String := prettyAt 0 value

end Json

end SchemaEvolution

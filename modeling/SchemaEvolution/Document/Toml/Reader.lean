import SchemaEvolution.Document.Toml.Moment
import SchemaEvolution.Document.Toml.Number
import SchemaEvolution.Document.Toml.Tree

/-!
# Reading TOML documents

A document is read in two steps: its statements first, and then the tables that they make.
Unlike a JSON document it is read to its end before anything is decoded, so a fault of
notation anywhere in it leaves nothing.

## Main definitions

* `Toml.scanValue`: a value
* `Toml.Statement`, `Toml.scanStatements`: an entry or a header, and all of them
* `Toml.Statement.perform`: what a statement does to the tables
* `Toml.read`: the document that a text holds
-/

namespace SchemaEvolution.Toml

/-! ## Values -/

/-- A number or a moment. -/
def scanQuantity (chars : List Char) : Option (Reading × List Char) :=
  match scanMoment chars with
  | some (moment, rest) => some (moment.reading, rest)
  | none => scanNumber chars

/-- A value without others in it, and what follows. -/
def scanScalar : List Char → Option (Reading × List Char)
  | 't' :: 'r' :: 'u' :: 'e' :: rest => some (.boolean true, rest)
  | 'f' :: 'a' :: 'l' :: 's' :: 'e' :: rest => some (.boolean false, rest)
  | chars =>
    match chars.head? with
    | some '"' | some '\'' => (scanText chars).map fun (text, rest) => (.text text, rest)
    | _ => scanQuantity chars

section Nested

variable (item : List Char → Option (Reading × List Char))

/-- The items of a sequence up to its closing bracket, at most `bound` of them. They may
stand on several lines, and a comma may follow the last. -/
def scanItems : (bound : Nat) → List Char → Option (List Reading × List Char)
  | 0, _ => none
  | bound + 1, chars =>
    match skipFiller false chars with
    | ']' :: rest => some ([], rest)
    | chars => do
      let (first, rest) ← item chars
      match skipFiller false rest with
      | ',' :: rest =>
        let (others, rest) ← scanItems bound rest
        return (first :: others, rest)
      | ']' :: rest => return ([first], rest)
      | _ => none

/-- A key, the sign behind it and its value, and what follows. -/
def scanEntry (chars : List Char) : Option ((Key × Reading) × List Char) := do
  let (key, rest) ← scanKey chars
  let rest ← expect? '=' rest
  let (value, rest) ← item (skipBlanks rest)
  return ((key, value), rest)

/-- The entries of a table up to its closing brace, at least one and at most `bound`. They
stand on one line. -/
def scanEntries : (bound : Nat) → List Char → Option (List (Key × Reading) × List Char)
  | 0, _ => none
  | bound + 1, chars => do
    let (first, rest) ← scanEntry item chars
    match skipBlanks rest with
    | ',' :: rest =>
      let (others, rest) ← scanEntries bound rest
      return (first :: others, rest)
    | '}' :: rest => return ([first], rest)
    | _ => none

/-- A table between braces, behind the first, and what follows. -/
def scanInlineTable (chars : List Char) : Option (Reading × List Char) :=
  match skipBlanks chars with
  | '}' :: rest => some (.table [] true, rest)
  | chars => do
    let (entries, rest) ← scanEntries item chars.length chars
    let members ← entries.foldlM (fun members (key, value) => Members.enter key value members) []
    return (.table (Members.readings members) true, rest)

end Nested

/-- **A value**, nested at most `depth` deep, and what follows. -/
def scanValue : (depth : Nat) → List Char → Option (Reading × List Char)
  | 0, chars => scanScalar chars
  | depth + 1, '[' :: rest =>
    (scanItems (scanValue depth) (rest.length + 1) rest).map fun (items, rest) =>
      (.sequence items true, rest)
  | depth + 1, '{' :: rest => scanInlineTable (scanValue depth) rest
  | _, chars => scanScalar chars

/-! ## Statements -/

/-- **An entry, or the header of a table or of one more element.** -/
inductive Statement where
  | entry (key : Key) (value : Reading)
  | table (key : Key)
  | element (key : Key)

/-- A statement, and what follows its line. -/
def scanStatement : List Char → Option (Statement × List Char)
  | '[' :: '[' :: rest => do
    let (key, rest) ← scanKey rest
    let rest ← expect? ']' rest
    let rest ← expect? ']' rest
    let rest ← lineEnd? rest
    return (.element key, rest)
  | '[' :: rest => do
    let (key, rest) ← scanKey rest
    let rest ← expect? ']' rest
    let rest ← lineEnd? rest
    return (.table key, rest)
  | chars => do
    let ((key, value), rest) ← scanEntry (scanValue depthLimit) chars
    let rest ← lineEnd? rest
    return (.entry key value, rest)

/-- The statements of a text, fewer than `bound`. -/
def scanStatements : (bound : Nat) → List Char → Option (List Statement)
  | 0, _ => none
  | bound + 1, chars =>
    match skipFiller false chars with
    | [] => some []
    | chars => do
      let (first, rest) ← scanStatement chars
      let others ← scanStatements bound rest
      return first :: others

/-! ## Documents -/

/-- The tables of a document so far, and the path to the table that entries go to. -/
structure Progress where
  members : Members
  current : List String

/-- **What a statement does.** -/
def Statement.perform (progress : Progress) : Statement → Option Progress
  | .entry key value => do
    let members ← progress.members.within .implied (fun _ inner => Members.enter key value inner)
      progress.current .header
    return { progress with members := members }
  | .table key => do
    let members ← progress.members.openTable key
    return ⟨members, key.path ++ [key.name]⟩
  | .element key => do
    let members ← progress.members.openElement key
    return ⟨members, key.path ++ [key.name]⟩

/-- The text without a mark of byte order in front. -/
def skipMark : List Char → List Char
  | '\uFEFF' :: rest => rest
  | chars => chars

/-- The tables of a document; none if its notation is at fault. -/
def tables? (text : String) : Option Members := do
  let chars := skipMark text.toList
  let statements ← scanStatements (chars.length + 1) chars
  let progress ← statements.foldlM Statement.perform ⟨[], []⟩
  return progress.members

/-- **Reading a document.** -/
def read (text : String) : Document :=
  match tables? text with
  | some members => ⟨.table (Members.readings members) true, true⟩
  | none => ⟨.broken, false⟩

end SchemaEvolution.Toml

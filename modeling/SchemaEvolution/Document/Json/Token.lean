import SchemaEvolution.Document.Json.Number

/-!
# Tokens of JSON documents

## Main definitions

* `Json.Token`: brackets, separators, texts and scalars
* `Json.unquote`: the text between quotes, with its escapes resolved
* `Json.tokens`: the tokens of a document; a fault ends them with `Token.fault`
-/

namespace SchemaEvolution.Json

/-- **A token of a document.** -/
inductive Token where
  | openSequence
  | closeSequence
  | openTable
  | closeTable
  | comma
  | colon
  | text (value : String)
  | scalar (value : Reading)
  /-- Characters that are no token. -/
  | fault

/-! ## Texts

Between quotes stand characters as they are and escapes. An escape by number gives a unit of
the 16-bit encoding; two such units, a leading and a trailing surrogate, are one character. -/

/-- A piece of a quoted text: a character, or a 16-bit unit given by number. -/
inductive Piece where
  | char (c : Char)
  | unit (code : Nat)

/-- The value of four hexadecimal digits. -/
def unitCode? (a b c d : Char) : Option Nat := do
  let a ← Text.hexValue? a
  let b ← Text.hexValue? b
  let c ← Text.hexValue? c
  let d ← Text.hexValue? d
  return ((a * 16 + b) * 16 + c) * 16 + d

/-- The character that a one-letter escape stands for. -/
def shortEscape? : Char → Option Char
  | '"' => some '"'
  | '\\' => some '\\'
  | '/' => some '/'
  | 'b' => some '\x08'
  | 'f' => some '\x0c'
  | 'n' => some '\n'
  | 'r' => some '\r'
  | 't' => some '\t'
  | _ => none

/-- The pieces up to the closing quote, and what follows it. -/
def pieces : List Char → Option (List Piece × List Char)
  | [] => none
  | '"' :: rest => some ([], rest)
  | '\\' :: 'u' :: a :: b :: c :: d :: rest => do
    let code ← unitCode? a b c d
    let (more, rest) ← pieces rest
    return (.unit code :: more, rest)
  | '\\' :: e :: rest => do
    let c ← shortEscape? e
    let (more, rest) ← pieces rest
    return (.char c :: more, rest)
  | c :: rest =>
    if c.toNat < 0x20 || c == '\\' then none
    else do
      let (more, rest) ← pieces rest
      return (.char c :: more, rest)

/-- The characters that pieces stand for; none if a surrogate has no partner. -/
def joinPieces : List Piece → Option (List Char)
  | [] => some []
  | .char c :: rest => (joinPieces rest).map (c :: ·)
  | .unit high :: .unit low :: rest =>
    if 0xD800 ≤ high && high < 0xDC00 then
      if 0xDC00 ≤ low && low < 0xE000 then
        (joinPieces rest).map
          (Char.ofNat (0x10000 + (high - 0xD800) * 0x400 + (low - 0xDC00)) :: ·)
      else none
    else if 0xDC00 ≤ high && high < 0xE000 then none
    else (joinPieces (.unit low :: rest)).map (Char.ofNat high :: ·)
  | .unit code :: rest =>
    if 0xD800 ≤ code && code < 0xE000 then none
    else (joinPieces rest).map (Char.ofNat code :: ·)

/-- The text up to the closing quote, and what follows it. -/
def unquote (chars : List Char) : Option (String × List Char) := do
  let (parts, rest) ← pieces chars
  let value ← joinPieces parts
  return (String.ofList value, rest)

/-! ## All tokens -/

/-- Whether a character is a blank between tokens. -/
def isSpace (c : Char) : Bool :=
  c == ' ' || c == '\n' || c == '\t' || c == '\r'

/-- What follows a word, if a text begins with it. -/
def afterWord? (word : List Char) (chars : List Char) : Option (List Char) :=
  if word.isPrefixOf chars then some (chars.drop word.length) else none

/-- The scalar that begins with a character, and what follows it. -/
def scanScalar (chars : List Char) : Option (Reading × List Char) :=
  match chars with
  | 'n' :: rest => (afterWord? ['u', 'l', 'l'] rest).map (Reading.null, ·)
  | 't' :: rest => (afterWord? ['r', 'u', 'e'] rest).map (Reading.boolean true, ·)
  | 'f' :: rest => (afterWord? ['a', 'l', 's', 'e'] rest).map (Reading.boolean false, ·)
  | _ => do
    let (numeral, rest) ← scanNumeral chars
    let value ← numeral.value?
    return (value, rest)

/-- The token at the head of a text that does not begin with a blank, and what follows. -/
def scanToken (c : Char) (rest : List Char) : Option (Token × List Char) :=
  match c with
  | '[' => some (.openSequence, rest)
  | ']' => some (.closeSequence, rest)
  | '{' => some (.openTable, rest)
  | '}' => some (.closeTable, rest)
  | ',' => some (.comma, rest)
  | ':' => some (.colon, rest)
  | '"' => (unquote rest).map fun (value, rest) => (.text value, rest)
  | _ => (scanScalar (c :: rest)).map fun (value, rest) => (.scalar value, rest)

/-- The tokens of a text, at most `bound` of them. -/
def tokensUpTo : (bound : Nat) → List Char → List Token
  | 0, _ => []
  | _, [] => []
  | bound + 1, c :: rest =>
    if isSpace c then tokensUpTo bound rest
    else
      match scanToken c rest with
      | some (token, rest) => token :: tokensUpTo bound rest
      | none => [.fault]

/-- **The tokens of a document.** Each step takes a character at least, so the length of
the text bounds their number. -/
def tokens (text : List Char) : List Token := tokensUpTo text.length text

end SchemaEvolution.Json

import SchemaEvolution.Text.Characters

/-!
# Lines, texts and keys of TOML documents

A line ends with a line feed, with or without a carriage return before it, or with the text; a
carriage return alone is no line end.

A text stands between quotes or apostrophes, one on each side or three. Between quotes a
backslash begins an escape; between apostrophes every character stands for itself. Only
between three may a text hold line ends, and each of them is read as a line feed.

The body of a text is found first and its escapes are resolved then.

## Main definitions

* `Toml.isVisible`: the characters that comments and quoted texts may hold
* `Toml.skipBlanks`: past the blanks of a line
* `Toml.skipFiller`: past blanks, comments and line ends
* `Toml.lineEnd?`: past the rest of a line that holds nothing more
* `Toml.lineBody`, `Toml.blockBody`: the body of a text up to its closing marks
* `Toml.unescape`, `Toml.verbatim`: the characters that a body stands for
* `Toml.scanText`: a text with its marks
* `Toml.Key`, `Toml.scanKey`: a name with the tables that it is looked up in
-/

namespace SchemaEvolution.Toml

/-! ## Lines -/

/-- Whether a character is a blank within a line. -/
def isBlank (c : Char) : Bool := c == ' ' || c == '\t'

/-- Whether a character may stand in a comment or between quotes: every one but the control
characters of ASCII, the tab excepted. -/
def isVisible (c : Char) : Bool := c == '\t' || (0x20 ≤ c.toNat && c.toNat != 0x7F)

/-- What follows the blanks. -/
def skipBlanks (chars : List Char) : List Char := chars.dropWhile isBlank

/-- What follows blanks, comments and line ends; `inComment` tells whether a comment has
begun. -/
def skipFiller (inComment : Bool) : List Char → List Char
  | [] => []
  | '\n' :: rest => skipFiller false rest
  | '\r' :: '\n' :: rest => skipFiller false rest
  | c :: rest =>
    if isBlank c || c == '#' || (inComment && isVisible c) then
      skipFiller (inComment || c == '#') rest
    else c :: rest

/-- What follows a comment, if one begins here. -/
def skipComment : List Char → List Char
  | '#' :: rest => rest.dropWhile isVisible
  | chars => chars

/-- What follows a line that has nothing more than blanks and a comment. -/
def lineEnd? (chars : List Char) : Option (List Char) :=
  match skipComment (skipBlanks chars) with
  | [] => some []
  | '\n' :: rest => some rest
  | '\r' :: '\n' :: rest => some rest
  | _ => none

/-! ## Bodies -/

/-- The body up to one closing mark, and what follows it. A character behind a backslash is
no closing mark where there are escapes. -/
def lineBody (mark : Char) (escapes : Bool) : List Char → Option (List Char × List Char)
  | [] => none
  | '\\' :: c :: rest =>
    if escapes || c != mark then
      (lineBody mark escapes rest).map fun (body, rest) => ('\\' :: c :: body, rest)
    else some (['\\'], rest)
  | c :: rest =>
    if c == mark then some ([], rest)
    else (lineBody mark escapes rest).map fun (body, rest) => (c :: body, rest)

/-- The body up to three closing marks, and what follows them. One or two marks may stand
right before these. -/
def blockBody (mark : Char) (escapes : Bool) : List Char → Option (List Char × List Char)
  | [] => none
  | c :: rest =>
    if c == mark && rest.take 2 == [mark, mark] then
      let surplus := ((rest.drop 2).take 2).takeWhile (· == mark)
      some (surplus, rest.drop (2 + surplus.length))
    else if escapes && c == '\\' then
      match rest with
      | [] => none
      | d :: rest =>
        (blockBody mark escapes rest).map fun (body, rest) => (c :: d :: body, rest)
    else (blockBody mark escapes rest).map fun (body, rest) => (c :: body, rest)

/-! ## What bodies stand for -/

/-- The character with a code, if there is one. -/
def charOfCode? (digits : List Char) : Option Char := do
  let _ ← digits.mapM Text.hexValue?
  let code := Text.valueIn 16 digits
  if code.isValidChar then some (Char.ofNat code) else none

/-- The character that a one-letter escape stands for. -/
def shortEscape? : Char → Option Char
  | 'b' => some '\x08'
  | 't' => some '\t'
  | 'n' => some '\n'
  | 'f' => some '\x0c'
  | 'r' => some '\r'
  | '"' => some '"'
  | '\\' => some '\\'
  | _ => none

/-- Whether nothing but blanks stands before the next line end. -/
def endsLine (chars : List Char) : Bool :=
  match skipBlanks chars with
  | '\n' :: _ => true
  | '\r' :: '\n' :: _ => true
  | _ => false

/-- **The characters that a body between quotes stands for.** With `lines` it may hold line
ends; a backslash at the end of a line then takes away the line end and all blanks and line
ends behind it, which are passed over while `joining`. -/
def unescape (lines : Bool) (joining : Bool) : List Char → Option (List Char)
  | [] => some []
  | '\\' :: 'u' :: a :: b :: c :: d :: rest => do
    let char ← charOfCode? [a, b, c, d]
    return char :: (← unescape lines false rest)
  | '\\' :: 'U' :: a :: b :: c :: d :: e :: f :: g :: h :: rest => do
    let char ← charOfCode? [a, b, c, d, e, f, g, h]
    return char :: (← unescape lines false rest)
  | '\\' :: c :: rest =>
    if lines && endsLine (c :: rest) then unescape lines true rest
    else do
      let char ← shortEscape? c
      return char :: (← unescape lines false rest)
  | '\r' :: '\n' :: rest =>
    if !lines then none
    else if joining then unescape lines true rest
    else (unescape lines false rest).map ('\n' :: ·)
  | '\n' :: rest =>
    if !lines then none
    else if joining then unescape lines true rest
    else (unescape lines false rest).map ('\n' :: ·)
  | c :: rest =>
    if joining && isBlank c then unescape lines true rest
    else if isVisible c && c != '\\' then (unescape lines false rest).map (c :: ·)
    else none

/-- **The characters that a body between apostrophes stands for**: itself, but for the
spelling of its line ends. -/
def verbatim (lines : Bool) : List Char → Option (List Char)
  | [] => some []
  | '\r' :: '\n' :: rest => if lines then (verbatim lines rest).map ('\n' :: ·) else none
  | '\n' :: rest => if lines then (verbatim lines rest).map ('\n' :: ·) else none
  | c :: rest => if isVisible c then (verbatim lines rest).map (c :: ·) else none

/-! ## Texts -/

/-- What follows a line end right behind the opening marks. -/
def skipFirstLineEnd : List Char → List Char
  | '\n' :: rest => rest
  | '\r' :: '\n' :: rest => rest
  | chars => chars

/-- What a body stands for. -/
def decodeBody (mark : Char) (lines : Bool) (body : List Char) : Option String :=
  (if mark == '"' then unescape lines false body else verbatim lines body).map String.ofList

/-- A text behind one opening mark, and what follows it. -/
def scanLineText (mark : Char) (chars : List Char) : Option (String × List Char) := do
  let (body, rest) ← lineBody mark (mark == '"') chars
  let text ← decodeBody mark false body
  return (text, rest)

/-- A text behind three opening marks, and what follows it. -/
def scanBlockText (mark : Char) (chars : List Char) : Option (String × List Char) := do
  let (body, rest) ← blockBody mark (mark == '"') (skipFirstLineEnd chars)
  let text ← decodeBody mark true body
  return (text, rest)

/-- **A text with its marks**, and what follows it. -/
def scanText : List Char → Option (String × List Char)
  | '"' :: '"' :: '"' :: rest => scanBlockText '"' rest
  | '"' :: rest => scanLineText '"' rest
  | '\'' :: '\'' :: '\'' :: rest => scanBlockText '\'' rest
  | '\'' :: rest => scanLineText '\'' rest
  | _ => none

/-! ## Keys -/

/-- A name with the names of the tables that it is looked up in, outermost first. -/
structure Key where
  path : List String
  name : String
  deriving DecidableEq, Repr

/-- Whether a character may stand in a name without quotes. -/
def isBare (c : Char) : Bool :=
  ('A' ≤ c && c ≤ 'Z') || ('a' ≤ c && c ≤ 'z') || c.isDigit || c == '_' || c == '-'

/-- One name of a key, and what follows it. -/
def scanName : List Char → Option (String × List Char)
  | '"' :: rest => scanLineText '"' rest
  | '\'' :: rest => scanLineText '\'' rest
  | chars =>
    match chars.takeWhile isBare with
    | [] => none
    | name => some (String.ofList name, chars.dropWhile isBare)

/-- A key of at most `limit` names, and what follows it and the blanks behind it. -/
def scanKeyUpTo : (limit : Nat) → List Char → Option (Key × List Char)
  | 0, _ => none
  | limit + 1, chars => do
    let (name, rest) ← scanName (skipBlanks chars)
    match skipBlanks rest with
    | '.' :: rest =>
      let (key, rest) ← scanKeyUpTo limit rest
      return (⟨name :: key.path, key.name⟩, rest)
    | rest => return (⟨[], name⟩, rest)

/-- Keys have at most this many names, and values are nested at most this deep. -/
def depthLimit : Nat := 79

/-- **A key**, and what follows it and the blanks behind it. -/
def scanKey (chars : List Char) : Option (Key × List Char) := scanKeyUpTo depthLimit chars

end SchemaEvolution.Toml

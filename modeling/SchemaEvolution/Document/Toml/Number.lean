import SchemaEvolution.Decimal.Shortest
import SchemaEvolution.Document.Reading
import SchemaEvolution.Text.Characters

/-!
# Numbers in TOML documents

An integer is decimal with or without sign, or hexadecimal, octal or binary without sign; it
fits in 64 bits with sign. A floating-point number has a fraction, an exponent or both, or is
one of the words for infinity and for what is no number. Single underscores may stand between
digits.

## Main definitions

* `Toml.scanDigits`: digits with underscores between them
* `Toml.scanNumber`: a number
-/

namespace SchemaEvolution.Toml

/-! ## Digits -/

/-- Further digits, each of which may have an underscore before it. -/
def moreDigits (isDigit : Char → Bool) : List Char → Option (List Char × List Char)
  | [] => some ([], [])
  | '_' :: c :: rest =>
    if isDigit c then
      (moreDigits isDigit rest).map fun (digits, rest) => (c :: digits, rest)
    else none
  | c :: rest =>
    if isDigit c then
      (moreDigits isDigit rest).map fun (digits, rest) => (c :: digits, rest)
    else if c == '_' then none
    else some ([], c :: rest)

/-- **Digits with underscores between them**, at least one, and what follows. -/
def scanDigits (isDigit : Char → Bool) : List Char → Option (List Char × List Char)
  | [] => none
  | c :: rest =>
    if isDigit c then
      (moreDigits isDigit rest).map fun (digits, rest) => (c :: digits, rest)
    else none

/-- The digits before the point: a zero alone, or digits that do not begin with zero. -/
def scanWhole : List Char → Option (List Char × List Char)
  | '0' :: rest => some (['0'], rest)
  | chars => scanDigits Char.isDigit chars

/-- A sign, if there is one, and what follows; `true` for minus. -/
def scanSign : List Char → Bool × List Char
  | '+' :: rest => (false, rest)
  | '-' :: rest => (true, rest)
  | chars => (false, chars)

/-! ## Integers -/

/-- An integer, if it fits in 64 bits with sign. -/
def integer? (negative : Bool) (size : Nat) : Option Reading :=
  let value : Int := if negative then -size else size
  if Word.fitsSigned 63 value then some (.integer value) else none

/-- Whether a character is a digit in a base of at most sixteen. -/
def isDigitIn (base : Nat) (c : Char) : Bool :=
  match Text.hexValue? c with
  | some value => value < base
  | none => false

/-- An integer in a base, behind the mark of the base. -/
def scanInBase (base : Nat) (chars : List Char) : Option (Reading × List Char) := do
  let (digits, rest) ← scanDigits (isDigitIn base) chars
  let value ← integer? false (Text.valueIn base digits)
  return (value, rest)

/-! ## Floating-point numbers -/

/-- The fraction, if there is a point; then there is at least one digit. -/
def scanFraction : List Char → Option (Option (List Char) × List Char)
  | '.' :: rest => do
    let (digits, rest) ← scanDigits Char.isDigit rest
    return (some digits, rest)
  | chars => some (none, chars)

/-- The exponent, if there is one; then there is at least one digit. -/
def scanExponent (chars : List Char) : Option (Option Int × List Char) :=
  match chars with
  | c :: rest =>
    if c == 'e' || c == 'E' then do
      let (negative, rest) := scanSign rest
      let (digits, rest) ← scanDigits Char.isDigit rest
      let size : Int := Text.decimalValue digits
      return (some (if negative then -size else size), rest)
    else some (none, chars)
  | [] => some (none, [])

/-- Floating-point numbers are shown positionally, however long they get. -/
def numberStyle : NumberStyle := ⟨fun _ => true⟩

/-- A floating-point number with a sign. One that is too large is refused; one that is too
small for a negative number is minus infinity. -/
def float? (negative : Bool) (size : Float) : Option Reading :=
  if size.isInf && !negative then none
  else some (.number (numberStyle.text (if negative then -size else size)))

/-- A number without sign, and what follows it. -/
def scanSize (negative : Bool) (chars : List Char) : Option (Reading × List Char) := do
  let (whole, rest) ← scanWhole chars
  let (fraction, rest) ← scanFraction rest
  let (exponent, rest) ← scanExponent rest
  let value ←
    if fraction.isSome || exponent.isSome then
      let places := fraction.getD []
      let decimal : Decimal :=
        ⟨Text.decimalValue (whole ++ places), exponent.getD 0 - places.length⟩
      float? negative decimal.toFloat
    else integer? negative (Text.decimalValue whole)
  return (value, rest)

/-- **A number**, and what follows it. -/
def scanNumber : List Char → Option (Reading × List Char)
  | '0' :: 'x' :: rest => scanInBase 16 rest
  | '0' :: 'o' :: rest => scanInBase 8 rest
  | '0' :: 'b' :: rest => scanInBase 2 rest
  | chars =>
    let (negative, rest) := scanSign chars
    match rest with
    | 'i' :: 'n' :: 'f' :: rest => some (.number (if negative then "-inf" else "inf"), rest)
    | 'n' :: 'a' :: 'n' :: rest => some (.number "NaN", rest)
    | _ => scanSize negative rest

end SchemaEvolution.Toml

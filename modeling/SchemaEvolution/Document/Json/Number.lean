import SchemaEvolution.Decimal.Shortest
import SchemaEvolution.Document.Reading
import SchemaEvolution.Text.Characters

/-!
# Numbers in JSON documents

A number without fraction and exponent is an integer as long as it fits in 64 bits, without
sign for a positive and with sign for a negative one; every other number, and `-0`, is a
floating-point number. Such a number is read in two roundings: its leading digits, as many
as fit in 64 bits, are rounded first, and the scaling by a power of ten is rounded again.

## Main definitions

* `Json.Numeral`: the parts of a number as written
* `Json.scanNumeral`: the number at the head of a text
* `Json.Numeral.value?`: its value; none for a number out of range
-/

namespace SchemaEvolution.Json

/-- The parts of a number as written: the digits before and behind the point, and the
exponent. -/
structure Numeral where
  negative : Bool
  whole : List Char
  fraction : Option (List Char)
  exponent : Option (Bool × List Char)

/-- The digits before the point: a zero alone, or digits that do not begin with zero. -/
def scanWhole (chars : List Char) : Option (List Char × List Char) :=
  match Text.spanDigits chars with
  | ([], _) => none
  | ('0' :: _ :: _, _) => none
  | (digits, rest) => some (digits, rest)

/-- The digits behind the point, if there is a point; then there is at least one. -/
def scanFraction : List Char → Option (Option (List Char) × List Char)
  | '.' :: chars =>
    match Text.spanDigits chars with
    | ([], _) => none
    | (digits, rest) => some (some digits, rest)
  | chars => some (none, chars)

/-- The sign and the digits of an exponent, if there is one; then there is at least one
digit. The sign is `true` for a negative exponent. -/
def scanExponent (chars : List Char) : Option (Option (Bool × List Char) × List Char) :=
  let digitsOf (negative : Bool) (chars : List Char) :=
    match Text.spanDigits chars with
    | ([], _) => none
    | (digits, rest) => some (some (negative, digits), rest)
  match chars with
  | c :: rest =>
    if c == 'e' || c == 'E' then
      match rest with
      | '+' :: rest => digitsOf false rest
      | '-' :: rest => digitsOf true rest
      | _ => digitsOf false rest
    else some (none, chars)
  | [] => some (none, [])

/-- The number at the head of a text, and what follows it. -/
def scanNumeral (chars : List Char) : Option (Numeral × List Char) := do
  let (negative, chars) :=
    match chars with
    | '-' :: rest => (true, rest)
    | _ => (false, chars)
  let (whole, chars) ← scanWhole chars
  let (fraction, chars) ← scanFraction chars
  let (exponent, chars) ← scanExponent chars
  return (⟨negative, whole, fraction, exponent⟩, chars)

/-- The leading digits that fit in 64 bits, as a number, and how many digits are left. -/
def leadingDigits (value : Nat) : List Char → Nat × Nat
  | [] => (value, 0)
  | c :: rest =>
    let next := 10 * value + (c.toNat - '0'.toNat)
    if Word.fits 64 next then leadingDigits next rest else (value, rest.length + 1)

/-- The exact power of ten that a scaling step multiplies or divides by. -/
def powerOfTen (n : Nat) : Float := Float.ofScientific 1 false n

/-- A floating-point number times a power of ten; none if the result is too large. Down to
zero it takes steps of 308 places, of which three are enough for 64 bits. -/
def scale (x : Float) (exponent : Int) : (bound : Nat) → Option Float
  | 0 => some 0.0
  | bound + 1 =>
    if exponent.natAbs ≤ 308 then
      if 0 ≤ exponent then
        let y := x * powerOfTen exponent.toNat
        if y.isInf then none else some y
      else some (x / powerOfTen exponent.natAbs)
    else if x == 0.0 then some x
    else if 0 ≤ exponent then none
    else scale (x / powerOfTen 308) (exponent + 308) bound

/-- The style in which numbers of JSON documents are shown: positional from `0.0001` up to
sixteen digits before the point. -/
def numberStyle : NumberStyle := ⟨fun exponent => -4 ≤ exponent && exponent < 16⟩

namespace Numeral

/-- The value of a floating-point number; none if it is out of range. An exponent of more
than 31 bits is not computed: the number is zero or out of range. -/
def float? (n : Numeral) : Option Float :=
  let (significand, dropped) := leadingDigits 0 n.whole
  let places := n.fraction.getD []
  let (significand, left) := leadingDigits significand places
  let scaled : Int := dropped - ((places.length : Int) - left)
  let magnitude : Option Float :=
    match n.exponent with
    | none => scale (UInt64.ofNat significand).toFloat scaled 3
    | some (negative, digits) =>
      let size := Text.decimalValue digits
      if !Word.fits 31 size then
        if significand = 0 || negative then some 0.0 else none
      else
        scale (UInt64.ofNat significand).toFloat
          (if negative then scaled - size else scaled + size) 3
  magnitude.map fun x => if n.negative then -x else x

/-- **The value of a number**; none if it is out of range. -/
def value? (n : Numeral) : Option Reading :=
  let shown := (n.float?).map fun x => Reading.number (numberStyle.text x)
  if n.fraction.isSome || n.exponent.isSome then shown
  else
    let size := Text.decimalValue n.whole
    if n.negative then
      if 0 < size && size ≤ Word.limit 63 then some (.integer (-size)) else shown
    else if Word.fits 64 size then some (.integer size)
    else shown

end Numeral

end SchemaEvolution.Json

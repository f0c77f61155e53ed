import SchemaEvolution.Text.Characters

/-!
# The shortest decimal of a floating-point number

A binary floating-point number stands for all real numbers that round to it. Its shortest
decimal is the one with the fewest digits among those, and of these the nearest to the
number itself. The search is exact: it goes down the powers of ten from above the largest
finite number and looks at the two neighbours of the number on each decimal grid.

## Main definitions

* `Binary`: a positive number `mantissa * 2 ^ exponent` with the gap below it
* `Decimal`: a number `digits * 10 ^ scale`
* `Binary.shortest`: the shortest decimal of a number
* `NumberStyle`, `NumberStyle.text`: which numbers are written positionally, and the text
* `Decimal.toFloat`: the floating-point number nearest to a decimal
-/

namespace SchemaEvolution

/-- A positive binary number, `mantissa * 2 ^ exponent`. -/
structure Binary where
  mantissa : Nat
  exponent : Int
  /-- Whether the next smaller number is half as far away as the next larger one. -/
  narrowBelow : Bool

/-- A decimal number, `digits * 10 ^ scale`. -/
structure Decimal where
  digits : Nat
  scale : Int
  deriving DecidableEq, Repr

namespace Binary

/-- The positive finite number with the given bits, sign aside. -/
def ofBits (bits : Nat) : Binary :=
  let fraction : Nat := bits % Word.limit 52
  let field : Nat := bits / Word.limit 52 % Word.limit 11
  if field = 0 then ⟨fraction, -1074, false⟩
  else ⟨fraction + Word.limit 52, (field : Int) - 1075, fraction = 0 && 1 < field⟩

/-- A power with an integer exponent as a fraction: numerator and denominator. -/
def powerFraction (base : Nat) (exponent : Int) : Nat × Nat :=
  if 0 ≤ exponent then (Nat.pow base exponent.toNat, 1)
  else (1, Nat.pow base (-exponent).toNat)

/-- The better of the two neighbours of a number on the grid of `10 ^ scale`, if one of them
rounds to the number. An exact tie goes down. -/
def onGrid (x : Binary) (scale : Int) : Option Nat :=
  let (unit, unitBelow) := powerFraction 2 (x.exponent - 2)
  let (grid, gridBelow) := powerFraction 10 scale
  let number := 4 * x.mantissa * unit * gridBelow
  let lowest := (4 * x.mantissa - if x.narrowBelow then 1 else 2) * unit * gridBelow
  let highest := (4 * x.mantissa + 2) * unit * gridBelow
  let step := grid * unitBelow
  let inside (n : Nat) : Bool :=
    if x.mantissa % 2 = 0 then lowest ≤ n && n ≤ highest else lowest < n && n < highest
  let down := number / step
  let hitDown := inside (down * step)
  let hitUp := inside ((down + 1) * step)
  if hitDown && hitUp then
    some (if number - down * step ≤ (down + 1) * step - number then down else down + 1)
  else if hitDown then some down
  else if hitUp then some (down + 1)
  else none

/-- The first hit on the grids from `10 ^ top` downwards, over `count` grids. -/
def firstHit (x : Binary) : (count : Nat) → (top : Int) → Option Decimal
  | 0, _ => none
  | count + 1, top =>
    match x.onGrid top with
    | some digits => some ⟨digits, top⟩
    | none => firstHit x count (top - 1)

/-- **The shortest decimal** that rounds to a number. -/
def shortest (x : Binary) : Decimal :=
  (x.firstHit 660 310).getD ⟨x.mantissa, 0⟩

end Binary

/-- How a finite number is written: positionally when the exponent of its first digit
satisfies `positional`, and otherwise with an exponent of at least two digits. -/
structure NumberStyle where
  positional : Int → Bool

namespace Decimal

/-- The exponent of the first digit. -/
def leading (x : Decimal) : Int :=
  ((Nat.toDigits 10 x.digits).length : Int) - 1 + x.scale

/-- The number in positional notation, with at least one place behind the point. -/
def positionalText (x : Decimal) : String :=
  let digits := Nat.toDigits 10 x.digits
  if 0 ≤ x.scale then
    String.ofList (digits ++ List.replicate x.scale.toNat '0') ++ ".0"
  else
    let places := (-x.scale).toNat
    let padded := List.replicate (places + 1 - digits.length) '0' ++ digits
    let whole := padded.length - places
    String.ofList (padded.take whole) ++ "." ++ String.ofList (padded.drop whole)

/-- The number with one digit in front of the point and an exponent. -/
def exponentText (x : Decimal) : String :=
  let sign := if 0 ≤ x.leading then "e+" else "e-"
  let size := Nat.toDigits 10 x.leading.natAbs
  let exponent := sign ++ String.ofList (List.replicate (2 - size.length) '0' ++ size)
  match Nat.toDigits 10 x.digits with
  | first :: next :: rest => String.ofList (first :: '.' :: next :: rest) ++ exponent
  | digits => String.ofList digits ++ exponent

/-- The floating-point number nearest to a decimal. A number far outside the range is not
computed: it is infinite or zero. -/
def toFloat (x : Decimal) : Float :=
  if x.digits = 0 || x.leading < -400 then 0.0
  else if 400 < x.leading then 1.0 / 0.0
  else if 0 ≤ x.scale then Float.ofScientific x.digits false x.scale.toNat
  else Float.ofScientific x.digits true (-x.scale).toNat

end Decimal

/-- **The text of a floating-point number** in a style. -/
def NumberStyle.text (style : NumberStyle) (x : Float) : String :=
  let bits := x.toBits.toNat
  let sign := if bits / Word.limit 63 = 1 then "-" else ""
  if x.isNaN then "NaN"
  else if x.isInf then sign ++ "inf"
  else if bits % Word.limit 63 = 0 then sign ++ "0.0"
  else
    let decimal := (Binary.ofBits (bits % Word.limit 63)).shortest
    sign ++
      if style.positional decimal.leading then decimal.positionalText else decimal.exponentText

end SchemaEvolution

import SchemaEvolution.Document.Reading
import SchemaEvolution.Text.Characters

/-!
# Dates and times in TOML documents

A moment is a date, a time of day or both, and with both there may be an offset from universal
time. No schema has a place for moments: where one stands it is read as a table with a single
member, whose name no schema uses, and with the moment in its one written form.

## Main definitions

* `Toml.Date`, `Toml.Time`, `Toml.Offset`, `Toml.Moment`: what is written
* `Toml.Moment.text`: its one written form
* `Toml.scanMoment`: a moment in any of its written forms
* `Toml.Moment.reading`: how a moment is read
-/

namespace SchemaEvolution.Toml

/-- A day of the calendar. -/
structure Date where
  year : Nat
  month : Nat
  day : Nat
  deriving DecidableEq, Repr

/-- A time of day. -/
structure Time where
  hour : Nat
  minute : Nat
  second : Nat
  nanosecond : Nat
  deriving DecidableEq, Repr

/-- How far local time is ahead of universal time. -/
inductive Offset where
  | universal
  | minutes (ahead : Int)
  deriving DecidableEq, Repr

/-- **A moment.** -/
inductive Moment where
  | onDate (date : Date)
  | atTime (time : Time)
  | both (date : Date) (time : Time) (offset : Option Offset)
  deriving DecidableEq, Repr

/-! ## The one written form -/

/-- A number with zeros before it up to a width. -/
def padded (width value : Nat) : String :=
  let digits := Nat.toDigits 10 value
  String.ofList (List.replicate (width - digits.length) '0' ++ digits)

/-- A date, by year, month and day. -/
def Date.text (date : Date) : String :=
  padded 4 date.year ++ "-" ++ padded 2 date.month ++ "-" ++ padded 2 date.day

/-- A time, with as many places behind the second as it needs. -/
def Time.text (time : Time) : String :=
  let places := ((padded 9 time.nanosecond).toList.reverse.dropWhile (· == '0')).reverse
  padded 2 time.hour ++ ":" ++ padded 2 time.minute ++ ":" ++ padded 2 time.second ++
    if places.isEmpty then "" else "." ++ String.ofList places

/-- An offset, in hours and minutes. -/
def Offset.text : Offset → String
  | universal => "Z"
  | minutes ahead =>
    (if ahead < 0 then "-" else "+") ++ padded 2 (ahead.natAbs / 60) ++ ":" ++
      padded 2 (ahead.natAbs % 60)

/-- **The written form of a moment.** -/
def Moment.text : Moment → String
  | onDate date => date.text
  | atTime time => time.text
  | both date time offset => date.text ++ "T" ++ time.text ++ (offset.map Offset.text).getD ""

/-- The name of the member with which a moment is read. -/
def momentField : String := "$__toml_private_datetime"

/-- How a moment is read. -/
def Moment.reading (moment : Moment) : Reading :=
  .table [(momentField, .text moment.text)] true

/-! ## Reading -/

/-- Two digits that spell a number between two bounds. -/
def scanPair (lowest highest : Nat) : List Char → Option (Nat × List Char)
  | a :: b :: rest =>
    if a.isDigit && b.isDigit then
      let value := Text.decimalValue [a, b]
      if lowest ≤ value && value ≤ highest then some (value, rest) else none
    else none
  | _ => none

/-- What follows a character that has to stand here. -/
def expect? (c : Char) : List Char → Option (List Char)
  | d :: rest => if d == c then some rest else none
  | [] => none

/-- The number of days in a month. -/
def daysIn (year month : Nat) : Nat :=
  match month with
  | 2 => if year % 4 = 0 && (year % 100 != 0 || year % 400 = 0) then 29 else 28
  | 4 | 6 | 9 | 11 => 30
  | _ => 31

/-- A date, and what follows it. -/
def scanDate : List Char → Option (Date × List Char)
  | a :: b :: c :: d :: '-' :: rest =>
    if [a, b, c, d].all Char.isDigit then do
      let year := Text.decimalValue [a, b, c, d]
      let (month, rest) ← scanPair 1 12 rest
      let rest ← expect? '-' rest
      let (day, rest) ← scanPair 1 (daysIn year month) rest
      return (⟨year, month, day⟩, rest)
    else none
  | _ => none

/-- The places behind the second as nanoseconds, if there are any; places beyond the ninth
do not count. -/
def scanNanoseconds (chars : List Char) : Nat × List Char :=
  match chars with
  | '.' :: rest =>
    match Text.spanDigits rest with
    | ([], _) => (0, chars)
    | (digits, rest) => (Text.decimalValue ((digits ++ List.replicate 9 '0').take 9), rest)
  | _ => (0, chars)

/-- A time of day, and what follows it. -/
def scanTime (chars : List Char) : Option (Time × List Char) := do
  let (hour, rest) ← scanPair 0 23 chars
  let rest ← expect? ':' rest
  let (minute, rest) ← scanPair 0 59 rest
  let rest ← expect? ':' rest
  let (second, rest) ← scanPair 0 60 rest
  let (nanosecond, rest) := scanNanoseconds rest
  return (⟨hour, minute, second, nanosecond⟩, rest)

/-- An offset, and what follows it. -/
def scanOffset : List Char → Option (Offset × List Char)
  | [] => none
  | sign :: rest =>
    if sign == 'Z' || sign == 'z' then some (.universal, rest)
    else if sign == '+' || sign == '-' then do
      let (hours, rest) ← scanPair 0 23 rest
      let rest ← expect? ':' rest
      let (minutes, rest) ← scanPair 0 59 rest
      let ahead : Int := hours * 60 + minutes
      return (.minutes (if sign == '-' then -ahead else ahead), rest)
    else none

/-- What follows a date: a time with or without an offset, or neither. -/
def scanBehindDate (date : Date) (chars : List Char) : Moment × List Char :=
  match chars with
  | [] => (.onDate date, [])
  | c :: rest =>
    if c == 'T' || c == 't' || c == ' ' then
      match scanTime rest with
      | none => (.onDate date, chars)
      | some (time, rest) =>
        match scanOffset rest with
        | none => (.both date time none, rest)
        | some (offset, rest) => (.both date time (some offset), rest)
    else (.onDate date, chars)

/-- **A moment**, and what follows it. -/
def scanMoment (chars : List Char) : Option (Moment × List Char) :=
  match scanDate chars with
  | some (date, rest) => some (scanBehindDate date rest)
  | none => (scanTime chars).map fun (time, rest) => (.atTime time, rest)

end SchemaEvolution.Toml

import SchemaEvolution.Document.Reading
import SchemaEvolution.OrderedMap
import SchemaEvolution.Text.Characters
import SchemaEvolution.Text.Quoted

/-!
# Decoding documents

How a reading becomes a value of the expected shape. Faults are found in the order of the
text: a fault of notation is one only when decoding gets to it.

## Main definitions

* `DecodeFault`, `DecodeFault.message`: why a document is refused, and its wording
* `Decoder`: from a reading to a value or a fault
* `Decoder.text`, `Decoder.list`, `Decoder.mapping`: texts, sequences and maps
* `Field`, `Decoder.record`: records with named fields, which may also be written as a
  sequence of their values
-/

namespace SchemaEvolution

universe u

/-- **Why a document is refused.** -/
inductive DecodeFault where
  /-- The text is not a document. -/
  | illFormed
  /-- A value of another kind is expected. -/
  | invalidType (found expected : String)
  /-- A value of the right kind is not admitted. -/
  | invalidValue (found expected : String)
  /-- A sequence that stands for a record has another number of items. -/
  | invalidLength (length : Nat) (expected : String)
  | missingField (name : String)
  | duplicateField (name : String)
  | unknownField (name : String) (known : List String)
  | unknownVariant (name : String) (known : List String)
  deriving DecidableEq, Repr

namespace DecodeFault

/-- A name between accents, as messages show it. -/
def accented (name : String) : String := "\x60" ++ name ++ "\x60"

/-- The phrase for a choice of names. -/
def choice : List String → String
  | [first, second] => "expected " ++ accented first ++ " or " ++ accented second
  | names => "expected one of " ++ ", ".intercalate (names.map accented)

/-- The wording of a fault of content; a fault of notation has none. -/
def message : DecodeFault → Option String
  | illFormed => none
  | invalidType found expected => some s!"invalid type: {found}, expected {expected}"
  | invalidValue found expected => some s!"invalid value: {found}, expected {expected}"
  | invalidLength length expected => some s!"invalid length {length}, expected {expected}"
  | missingField name => some ("missing field " ++ accented name)
  | duplicateField name => some ("duplicate field " ++ accented name)
  | unknownField name known => some ("unknown field " ++ accented name ++ ", " ++ choice known)
  | unknownVariant name known =>
    some ("unknown variant " ++ accented name ++ ", " ++ choice known)

end DecodeFault

open DecodeFault (accented)

/-- From a reading to a value. -/
abbrev Decoder (α : Type u) := Reading → Except DecodeFault α

/-- What a message says of a reading that is not of the expected kind; none for one that
could not be read. -/
def Reading.phrase? : Reading → Option String
  | null => some "null"
  | boolean value => some ("boolean " ++ accented (if value then "true" else "false"))
  | integer value => some ("integer " ++ accented (toString value))
  | number shown => some ("floating point " ++ accented shown)
  | text value => some ("string " ++ Text.quote value)
  | sequence .. => some "sequence"
  | table .. => some "map"
  | broken => none

namespace Decoder

variable {α : Type u}

/-- The refusal of a reading of another kind. -/
def mismatch (expected : String) (reading : Reading) : Except DecodeFault α :=
  match reading.phrase? with
  | some found => .error (.invalidType found expected)
  | none => .error .illFormed

/-- Text. -/
def text : Decoder String
  | .text value => .ok value
  | other => mismatch "a string" other

/-- A value, or nothing where null stands. -/
def optional (item : Decoder α) : Decoder (Option α)
  | .null => .ok none
  | other => (item other).map some

/-- The number of a place; it fits in 64 bits. -/
def place : Decoder Nat
  | .integer value =>
    if 0 ≤ value && Word.fits 64 value.toNat then .ok value.toNat
    else .error (.invalidValue ("integer " ++ accented (toString value)) "usize")
  | other => mismatch "usize" other

/-- The items of a sequence, decoded one by one. -/
def items (item : Decoder α) (whole : Bool) : List Reading → Except DecodeFault (List α)
  | [] => if whole then .ok [] else .error .illFormed
  | reading :: rest => do
    let value ← item reading
    let values ← items item whole rest
    return value :: values

/-- A sequence. -/
def list (item : Decoder α) : Decoder (List α)
  | .sequence readings whole => items item whole readings
  | other => mismatch "a sequence" other

/-- The members of a map, entered one by one. -/
def members (item : Decoder α) (whole : Bool) :
    List (String × Reading) → OrderedMap α → Except DecodeFault (OrderedMap α)
  | [], map => if whole then .ok map else .error .illFormed
  | (name, reading) :: rest, map => do
    let value ← item reading
    members item whole rest (map.insert name value)

/-- A map; a repeated name keeps its first place and takes the last value. -/
def mapping (item : Decoder α) : Decoder (OrderedMap α)
  | .table readings whole => members item whole readings ∅
  | other => mismatch "a map" other

end Decoder

/-! ## Records -/

/-- **A field of a record**: how its value is entered into the record. -/
structure Field (α : Type u) where
  name : String
  /-- Whether a record without the field is refused. -/
  required : Bool
  store : Reading → α → Except DecodeFault α

/-- A field whose value a decoder yields and a setter enters. -/
def Field.of {α : Type u} {β : Type} (name : String) (required : Bool) (decoder : Decoder β)
    (set : β → α → α) : Field α where
  name := name
  required := required
  store reading record := (decoder reading).map (set · record)

/-- What is done with a member of a table that is no field of the record. -/
inductive Strangers where
  | refused
  | ignored
  deriving DecidableEq

/-- What is done with the items of a sequence behind those for the fields of the record. -/
inductive Surplus where
  /-- The sequence has to end there; else its notation is at fault. -/
  | ill
  | ignored
  /-- They are counted, and the sequence is refused by its length. -/
  | counted
  deriving DecidableEq

/-- **The shape of a record.** -/
structure Shape (α : Type u) where
  /-- What messages call the record. -/
  title : String
  fields : List (Field α)
  strangers : Strangers
  surplus : Surplus

namespace Shape

variable {α : Type u}

/-- The names of the fields, in the order of their declaration. -/
def names (shape : Shape α) : List String := shape.fields.map Field.name

/-- What messages call the record when it is written as a sequence. -/
def lengthTitle (shape : Shape α) : String :=
  let count := shape.fields.length
  shape.title ++ s!" with {count} element" ++ if count = 1 then "" else "s"

/-- The first required field that was not seen. -/
def firstMissing? (shape : Shape α) (seen : List String) : Option String :=
  (shape.fields.find? fun field => field.required && !seen.contains field.name).map Field.name

/-- The members of a table, entered one by one; `seen` are the fields met so far. -/
def fromMembers (shape : Shape α) (whole : Bool) :
    List (String × Reading) → (seen : List String) → α → Except DecodeFault α
  | [], seen, record =>
    if !whole then .error .illFormed
    else
      match shape.firstMissing? seen with
      | some name => .error (.missingField name)
      | none => .ok record
  | (name, reading) :: rest, seen, record =>
    match shape.fields.find? fun field => field.name == name with
    | none =>
      match shape.strangers with
      | .refused => .error (.unknownField name shape.names)
      | .ignored => fromMembers shape whole rest seen record
    | some field =>
      if seen.contains name then .error (.duplicateField name)
      else
        match field.store reading record with
        | .error fault => .error fault
        | .ok record => fromMembers shape whole rest (name :: seen) record

/-- The items of a sequence, entered field by field; `count` items came before. -/
def fromItems (shape : Shape α) (whole : Bool) :
    List (Field α) → List Reading → (count : Nat) → α → Except DecodeFault α
  | [], [], _, record =>
    if whole then .ok record else .error .illFormed
  | [], surplus, count, record =>
    match shape.surplus with
    | .ill => .error .illFormed
    | .ignored => .ok record
    | .counted =>
      .error (.invalidLength (count + surplus.length)
        (s!"{count} element" ++ (if count = 1 then "" else "s") ++ " in sequence"))
  | field :: fields, [], count, record =>
    if !whole then .error .illFormed
    else if field.required then .error (.invalidLength count shape.lengthTitle)
    else fromItems shape whole fields [] (count + 1) record
  | field :: fields, reading :: rest, count, record =>
    match field.store reading record with
    | .error fault => .error fault
    | .ok record => fromItems shape whole fields rest (count + 1) record

end Shape

/-- **A record**, written as a table or as the sequence of its values; a field that is left
out keeps the value of `blank`. -/
def Decoder.record {α : Type u} (shape : Shape α) (blank : α) : Decoder α
  | .table readings whole => shape.fromMembers whole readings [] blank
  | .sequence readings whole => shape.fromItems whole shape.fields readings 0 blank
  | other => Decoder.mismatch shape.title other

end SchemaEvolution

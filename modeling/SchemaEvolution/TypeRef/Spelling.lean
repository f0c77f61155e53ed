import SchemaEvolution.Error
import SchemaEvolution.Text.Characters

/-!
# Reading a type reference

A reference is written `Name`, `-Name` for a nullable, and `Name[]` or `§Name` for an array;
blanks around it do not count. Wrapping twice is refused, whichever signs are used.

## Main definitions

* `TypeRef.isNameChar`: the characters of a type name
* `TypeRef.parse`: the reference that a text spells, or why there is none
-/

namespace SchemaEvolution.TypeRef

open Text (isAlphanumeric trim)

/-- The characters of a type name: letters, numbers, underscores and dots. -/
def isNameChar (c : Char) : Bool :=
  isAlphanumeric c || c == '_' || c == '.'

/-- What stands before a final pair of brackets. -/
def beforeBrackets? (chars : List Char) : Option (List Char) :=
  match chars.reverse with
  | ']' :: '[' :: body => some body.reverse
  | _ => none

/-- What stands behind a leading sign of nullables. -/
def nullableBody? : List Char → Option (List Char)
  | '-' :: body => some body
  | _ => none

/-- What stands behind a leading sign of arrays. -/
def arrayBody? : List Char → Option (List Char)
  | '§' :: body => some body
  | _ => none

/-- Whether a text begins or ends with a mark of arrays. -/
def hasArrayMark (chars : List Char) : Bool :=
  (beforeBrackets? chars).isSome || (arrayBody? chars).isSome

/-- What a text that may be an array is an array of. Both marks at once are refused. -/
def splitArray (chars : List Char) : Except TypeRefFault (Bool × List Char) :=
  match beforeBrackets? chars with
  | some body => if (arrayBody? body).isSome then .error .arrayOfArray else .ok (true, body)
  | none =>
    match arrayBody? chars with
    | some body => .ok (true, body)
    | none => .ok (false, chars)

/-- The modifier of a reference with the given outer marks; both at once are refused. -/
def modifierOf : Bool → Bool → Except TypeRefFault Modifier
  | true, true => .error .nullableArray
  | true, false => .ok .nullable
  | false, true => .ok .array
  | false, false => .ok .plain

/-- The name inside the outer marks: it carries no further mark, is not empty and consists
of name characters. `modifier` only decides how a further mark is called. -/
def checkName (modifier : Modifier) (name : List Char) : Except TypeRefFault Unit :=
  if (nullableBody? name).isSome then
    .error (if modifier = .array then .arrayOfNullable else .nullableOfNullable)
  else if hasArrayMark name then
    .error (if modifier = .nullable then .nullableArray else .arrayOfArray)
  else if name.isEmpty then .error .missingName
  else if name.all isNameChar then .ok ()
  else .error .unexpectedCharacter

/-- The reference that a text without blanks around it spells. -/
def ofChars (chars : List Char) : Except TypeRefFault TypeRef := do
  let (nullable, rest) :=
    match nullableBody? chars with
    | some body => (true, body)
    | none => (false, chars)
  let (array, name) ← splitArray rest
  let modifier ← modifierOf nullable array
  checkName modifier name
  return ⟨String.ofList name, modifier⟩

/-- **Reading a type reference.** A refusal shows the text as it was given, blanks
included. -/
def parse (raw : String) : Except SchemaError TypeRef :=
  match ofChars (trim raw.toList) with
  | .ok ref => .ok ref
  | .error fault => .error (.structuralNesting raw fault)

end SchemaEvolution.TypeRef

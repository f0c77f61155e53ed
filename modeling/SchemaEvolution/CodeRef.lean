import SchemaEvolution.Error
import SchemaEvolution.Text.Characters

/-!
# Code references

Migration code is written elsewhere; a schema only says where it is. A reference names either a type
to construct or a static field of a holder type. It is written `pkg.Type` or `pkg.Holder#FIELD`;
blanks around it do not count. A path consists of segments between dots, none of them empty.

## Main definitions

* `CodeRef`: a type path, or an owner and a field
* `CodeRef.spelling`: the text of a reference
* `CodeRef.isPath`, `CodeRef.isField`: the two parts of a reference
* `CodeRef.parse`: the reference that a text spells, or why there is none
-/

namespace SchemaEvolution

/-- **A code reference**: where a converter, an initializer or a codec is found. -/
inductive CodeRef where
  /-- A type that is constructed without arguments. -/
  | construct (path : String)
  /-- A static field on a holder type. -/
  | staticField (owner field : String)
  deriving DecidableEq, Repr, Inhabited

/-- The text of a code reference. -/
def CodeRef.spelling : CodeRef → String
  | .construct path => path
  | .staticField owner field => owner ++ "#" ++ field

/-! ## Reading -/

namespace CodeRef

open Text (isAlphanumeric trim)

/-- The characters of a field name: letters, numbers and underscores. -/
def isFieldChar (c : Char) : Bool :=
  isAlphanumeric c || c == '_'

/-- The characters of a path: those of a field name, dots and dollar signs. -/
def isPathChar (c : Char) : Bool :=
  isFieldChar c || c == '.' || c == '$'

/-- Whether two dots stand side by side. -/
def hasDoubleDot : List Char → Bool
  | '.' :: '.' :: _ => true
  | _ :: rest => hasDoubleDot rest
  | [] => false

/-- A path: not empty, of path characters, no dot at either end and no two side by side. -/
def isPath (chars : List Char) : Bool :=
  !chars.isEmpty && chars.head? != some '.' && chars.getLast? != some '.' &&
    !hasDoubleDot chars && chars.all isPathChar

/-- A field name: not empty and of field characters. -/
def isField (chars : List Char) : Bool :=
  !chars.isEmpty && chars.all isFieldChar

/-- The two sides of the first number sign, if there is one. -/
def splitAtSign : List Char → Option (List Char × List Char)
  | [] => none
  | '#' :: field => some ([], field)
  | c :: rest => (splitAtSign rest).map fun (owner, field) => (c :: owner, field)

/-- The reference that a text without blanks around it spells. -/
def ofChars (chars : List Char) : Except CodeRefFault CodeRef :=
  match splitAtSign chars with
  | some (owner, field) =>
    if !isPath owner then .error .owner
    else if !isField field then .error .field
    else .ok (.staticField (String.ofList owner) (String.ofList field))
  | none =>
    if isPath chars then .ok (.construct (String.ofList chars)) else .error .path

/-- **Reading a code reference.** A refusal shows the text as it was given, blanks
included. -/
def parse (raw : String) : Except SchemaError CodeRef :=
  match ofChars (trim raw.toList) with
  | .ok ref => .ok ref
  | .error fault => .error (.invalidCodeRef raw fault)

end CodeRef

end SchemaEvolution

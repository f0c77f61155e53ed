/-!
# Native types and type references

A fixed set of leaf types exists without being declared; their names are reserved. A field refers to
its type by name, plain or wrapped once: as a nullable or as an array. A reference has one
**canonical spelling**, which for a wrapped reference also serves as the name of the wrapper type.

## Main definitions

* `NativeType`: the eleven native types
* `NativeType.name`, `NativeType.ofName?`: a native type and its reserved name
* `Modifier`: plain, nullable or array
* `TypeRef`: a type name with a modifier
* `TypeRef.canonical`: the canonical spelling, `N`, `-N` or `§N`
-/

namespace SchemaEvolution

/-! ## Native types -/

/-- A leaf type that needs no declaration. -/
inductive NativeType where
  | boolean | byte | short | int | long | float | double | char | string | bigint | decimal
  deriving DecidableEq, Repr, Inhabited

namespace NativeType

/-- Every native type, in the order in which they are entered into a catalog. -/
def all : List NativeType :=
  [boolean, byte, short, int, long, float, double, char, string, bigint, decimal]

/-- The reserved name of a native type. -/
def name : NativeType → String
  | boolean => "boolean"
  | byte => "byte"
  | short => "short"
  | int => "int"
  | long => "long"
  | float => "float"
  | double => "double"
  | char => "char"
  | string => "string"
  | bigint => "bigint"
  | decimal => "decimal"

/-- The native type that a name is reserved for. -/
def ofName? (name : String) : Option NativeType :=
  all.find? fun type => type.name == name

end NativeType

/-! ## Type references -/

/-- How a field holds values of the type that it names. -/
inductive Modifier where
  | plain
  | nullable
  | array
  deriving DecidableEq, Repr, Inhabited

namespace Modifier

/-- The word for a modifier in the interchange document. -/
def name : Modifier → String
  | plain => "plain"
  | nullable => "nullable"
  | array => "array"

/-- The sign in front of the type name in the canonical spelling, if there is one. -/
def sign : Modifier → List Char
  | plain => []
  | nullable => ['-']
  | array => ['§']

end Modifier

/-- **A type reference**: a type name, wrapped at most once. -/
structure TypeRef where
  /-- The name of the type that is referred to. -/
  name : String
  /-- How the name is wrapped. -/
  modifier : Modifier
  deriving DecidableEq, Repr, Inhabited

namespace TypeRef

/-- The canonical spelling: the sign of the modifier, then the name. -/
def canonical (ref : TypeRef) : String :=
  String.ofList (ref.modifier.sign ++ ref.name.toList)

/-- Whether the reference is a nullable or an array. -/
def isWrapped (ref : TypeRef) : Bool :=
  ref.modifier != .plain

end TypeRef

end SchemaEvolution

import SchemaEvolution.TypeRef

/-!
# What can be wrong with a schema

Every way in which a schema is refused, as a cause with its data; the wording is in one
place. An error is always fatal: the first one found is the answer.

## Main definitions

* `TypeCategory`: what kind of declaration a type name stands for
* `SchemaError`, `SchemaError.message`: the causes and their wording
* `ErrorCategory`, `SchemaError.category`: the six groups that causes are reported under
-/

namespace SchemaEvolution

/-- The kind of declaration that a type name stands for. -/
inductive TypeCategory where
  /-- A record type with fields. -/
  | base
  /-- A tagged choice between base types. -/
  | super
  /-- A leaf type that is implemented elsewhere. -/
  | custom
  /-- A leaf type that needs no declaration. -/
  | native (type : NativeType)
  deriving DecidableEq, Repr, Inhabited

namespace TypeCategory

/-- The phrase for a category in messages. -/
def phrase : TypeCategory → String
  | base => "base type"
  | super => "super type"
  | custom => "custom type"
  | native _ => "native type"

/-- Whether types of the category change from one version to the next. -/
def evolves : TypeCategory → Bool
  | base | super => true
  | custom | native _ => false

end TypeCategory

/-- What a name is declared as, where two declarations of it meet. -/
inductive NameRole where
  /-- As a type. -/
  | type (category : TypeCategory)
  /-- As an interface. -/
  | interface
  /-- As a member of a super type. -/
  | memberOf (superType : String)
  /-- As a member of a super type that has it already. -/
  | repeatedMember
  deriving DecidableEq, Repr

/-- The phrase for a role in messages. -/
def NameRole.phrase : NameRole → String
  | type category => category.phrase
  | interface => "interface"
  | memberOf superType => s!"a member of super type '{superType}'"
  | repeatedMember => "a repeated member of the same super type"

/-- Why a type reference is refused. -/
inductive TypeRefFault where
  | arrayOfArray
  | nullableArray
  | arrayOfNullable
  | nullableOfNullable
  | missingName
  | unexpectedCharacter
  /-- The reference is sound, but a declared name has to be a plain one. -/
  | wrappedDeclaration
  deriving DecidableEq, Repr

/-- The phrase for a refused type reference. -/
def TypeRefFault.phrase : TypeRefFault → String
  | arrayOfArray => "array of array"
  | nullableArray => "nullable array"
  | arrayOfNullable => "array of nullable"
  | nullableOfNullable => "nullable of nullable"
  | missingName => "missing type name"
  | unexpectedCharacter => "unexpected character in type name"
  | wrappedDeclaration => "declared type names cannot carry nullable or array sigils"

/-- Which part of a code reference is malformed. -/
inductive CodeRefFault where
  | owner
  | field
  | path
  deriving DecidableEq, Repr

/-- The phrase for a refused code reference. -/
def CodeRefFault.phrase : CodeRefFault → String
  | owner => "malformed owner type"
  | field => "malformed field name"
  | path => "malformed type path"

/-- The four kinds of field transformation. -/
inductive ChangeKind where
  | move
  | insert
  | remove
  | convert
  deriving DecidableEq, Repr

/-- The word for a kind of transformation, in schemas and in messages. -/
def ChangeKind.word : ChangeKind → String
  | move => "move"
  | insert => "insert"
  | remove => "remove"
  | convert => "convert"

/-- Where a type or an interface is named although it is not there. -/
inductive Mention where
  | baseField (field type : String)
  | implementsList (type : String)
  | memberList (superType : String)
  /-- The name exists, but it is not a base type. -/
  | memberOfCategory (superType : String) (category : TypeCategory)
  | extendsList (interface : String)
  | interfaceField (field interface : String)
  | target (kind : ChangeKind) (version : String)
  | introduced (kind : ChangeKind) (type version : String)
  | typeGraph
  deriving DecidableEq, Repr

/-- The phrase for the place of a mention. -/
def Mention.phrase : Mention → String
  | baseField field type => s!"field '{field}' of base type '{type}'"
  | implementsList type => s!"the implements list of base type '{type}'"
  | memberList superType => s!"the member list of super type '{superType}'"
  | memberOfCategory superType category =>
    s!"super type '{superType}' as a member, but it is a {category.phrase}; " ++
      "members must be base types"
  | extendsList interface => s!"the extends list of interface '{interface}'"
  | interfaceField field interface => s!"field '{field}' of interface '{interface}'"
  | target kind version => s!"a {kind.word} transformation in version '{version}'"
  | introduced kind type version =>
    s!"a {kind.word} transformation of '{type}' in version '{version}'"
  | typeGraph => "the type graph"

/-- How a field fails to be what an interface asks for. -/
inductive ConformanceFault where
  /-- The interface declares the field otherwise than one that it extends. -/
  | redeclared (declared inherited : TypeRef)
  /-- The base type lacks the field. -/
  | missing
  /-- The base type has the field with another type. -/
  | differs (actual expected : TypeRef)
  deriving DecidableEq, Repr

/-- The phrase for a failing field. -/
def ConformanceFault.phrase : ConformanceFault → String
  | redeclared declared inherited =>
    s!"is declared as '{declared.canonical}' but an extended interface declares " ++
      s!"'{inherited.canonical}'"
  | missing => "is missing at the current version"
  | differs actual expected =>
    s!"is declared as '{actual.canonical}' but the interface declares '{expected.canonical}'"

/-- The place of a field operation: a base type and the name of the version that changes it. -/
structure FieldSite where
  type : String
  version : String
  deriving DecidableEq, Repr

/-- **The causes for which a schema is refused.** -/
inductive SchemaError where
  /-- No version starts the chain. -/
  | noRoot
  /-- More than one version starts a chain. -/
  | multipleRoots (versions : List String)
  /-- Two versions continue the same one. -/
  | multipleNext (previous first second : String)
  /-- The first version has nothing to transform. -/
  | rootHasTransformations (version : String)
  /-- A version continues one that is not declared. -/
  | unknownVersion (version previous : String)
  /-- The chain from the root does not lead through every version to the current one. -/
  | currentMismatch (expected found : String) (visited total : Nat)
  /-- A code reference is malformed. -/
  | invalidCodeRef (raw : String) (fault : CodeRefFault)
  /-- Interfaces extend each other in a circle; the first name is also the last. -/
  | interfaceCycle (path : List String)
  /-- A member of a super type changes its number. -/
  | discriminantRenumbered (superType member : String) (before after : UInt32) (version : Nat)
  /-- A name is mentioned that is not declared. -/
  | unknownType (name : String) (mention : Mention)
  /-- The type graph has no such type at a version. -/
  | typeNotFound (name : String) (version : Nat)
  /-- A transformation targets a type without fields. -/
  | notABaseType (name version : String)
  /-- A name is declared twice. -/
  | duplicateTypeName (name : String) (first second : NameRole)
  /-- A field that is operated on or read does not exist. -/
  | fieldMissing (site : FieldSite) (field : String)
  /-- A field that is to arrive exists already. -/
  | slotOccupied (site : FieldSite) (field : String)
  /-- A position lies behind the end of the fields. -/
  | indexOutOfRange (site : FieldSite) (index size : Nat)
  /-- A field is not what an interface asks for. -/
  | interfaceMismatch (type interface field : String) (fault : ConformanceFault)
  /-- A type reference is malformed or wraps twice. -/
  | structuralNesting (raw : String) (fault : TypeRefFault)
  /-- An upgrade ends with other fields than its target declares. -/
  | upgradeConsistency (type source target : String) (expected actual : List String)
  /-- An invariant of the compiler itself is broken. -/
  | internal (detail : String)
  deriving DecidableEq, Repr

/-- The groups under which causes are reported. -/
inductive ErrorCategory where
  | configurationStructure
  | unknownTypeReference
  | duplicateTypeName
  | fieldOperationConflict
  | structuralNestingViolation
  | upgradeConsistency
  deriving DecidableEq, Repr

/-- The name of a group in reports. -/
def ErrorCategory.name : ErrorCategory → String
  | configurationStructure => "ConfigurationStructureError"
  | unknownTypeReference => "UnknownTypeReference"
  | duplicateTypeName => "DuplicateTypeName"
  | fieldOperationConflict => "FieldOperationConflict"
  | structuralNestingViolation => "StructuralNestingViolation"
  | upgradeConsistency => "UpgradeConsistencyError"

namespace SchemaError

/-- The group that a cause belongs to. -/
def category : SchemaError → ErrorCategory
  | noRoot | multipleRoots _ | multipleNext .. | rootHasTransformations _ | unknownVersion ..
  | currentMismatch .. | invalidCodeRef .. | interfaceCycle _ | discriminantRenumbered .. =>
    .configurationStructure
  | unknownType .. | typeNotFound .. | notABaseType .. => .unknownTypeReference
  | duplicateTypeName .. => .duplicateTypeName
  | fieldMissing .. | slotOccupied .. | indexOutOfRange .. | interfaceMismatch .. =>
    .fieldOperationConflict
  | structuralNesting .. => .structuralNestingViolation
  | upgradeConsistency .. | internal _ => .upgradeConsistency

/-- **The wording of a cause.** -/
def message : SchemaError → String
  | noRoot => "no root version: every version declares a previous version"
  | multipleRoots versions => "multiple root versions: " ++ ", ".intercalate versions
  | multipleNext previous first second =>
    s!"version '{previous}' is claimed as previous by both '{first}' and '{second}'"
  | rootHasTransformations version => s!"root version '{version}' declares transformations"
  | unknownVersion version previous =>
    s!"version '{version}' names unknown previous version '{previous}'"
  | currentMismatch expected found visited total =>
    s!"version chain ends at '{found}' after visiting {visited} of {total} versions, " ++
      s!"but the current version is '{expected}'"
  | invalidCodeRef raw fault => s!"invalid code reference '{raw}': {fault.phrase}"
  | interfaceCycle path => "interface inheritance cycle: " ++ " → ".intercalate path
  | discriminantRenumbered superType member before after version =>
    s!"super type '{superType}' renumbers member '{member}' from discriminant {before} " ++
      s!"to {after} at version {version}"
  | unknownType name mention => s!"unknown type '{name}' referenced by {mention.phrase}"
  | typeNotFound name version => s!"type '{name}' has no node at version {version}"
  | notABaseType name version =>
    s!"transformation in version '{version}' targets '{name}', which is not a base type"
  | duplicateTypeName name first second =>
    s!"type name '{name}' declared as both {first.phrase} and {second.phrase}"
  | fieldMissing site field =>
    s!"field '{field}' is missing from '{site.type}' in version '{site.version}'"
  | slotOccupied site field =>
    s!"field '{field}' already exists in '{site.type}' in version '{site.version}'"
  | indexOutOfRange site index size =>
    s!"index {index} is out of range for '{site.type}' ({size} fields) " ++
      s!"in version '{site.version}'"
  | interfaceMismatch type interface field fault =>
    s!"type '{type}' implements '{interface}' but field '{field}' {fault.phrase}"
  | structuralNesting raw fault => s!"illegal type reference '{raw}': {fault.phrase}"
  | upgradeConsistency type source target expected actual =>
    s!"upgrade of '{type}' from {source} to {target} produced fields [" ++
      ", ".intercalate actual ++ "] but the target declares [" ++
      ", ".intercalate expected ++ "]"
  | internal detail => s!"internal error: {detail}"

/-- What is reported of a worker that ends without an answer. That happens where a place is looked
up that is not there. -/
def workerLost : SchemaError := .internal "worker thread panicked"

end SchemaError

end SchemaEvolution

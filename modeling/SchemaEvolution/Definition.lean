import SchemaEvolution.CodeRef
import SchemaEvolution.Definition.Catalog
import SchemaEvolution.Definition.Hierarchy
import SchemaEvolution.Layout

/-!
# Schemas with their references resolved

The definition of a schema has every type reference and code reference read, and every name
that it mentions is declared. Versions are not ordered yet.

## Main definitions

* `Definition`: a schema whose references are resolved
* `Definition.ofConfig`: the definition of a schema as written, or the first fault in it
* `Definition.inheritAll`: the fields that an interface declares or inherits
-/

namespace SchemaEvolution

/-- An interface. -/
structure Interface where
  /-- The interfaces that it extends directly. -/
  extended : List String
  /-- The fields that it declares itself. -/
  fields : Layout
  /-- The fields that it declares or inherits, parents first. -/
  allFields : Layout
  deriving DecidableEq, Repr

/-- A base type. -/
structure BaseType where
  /-- The interfaces that it implements. -/
  implemented : List String
  /-- Its layout at the first version. -/
  fields : Layout
  deriving DecidableEq, Repr

/-- A custom type. -/
structure CustomType where
  /-- The class that represents it. -/
  representation : CodeRef
  /-- The class that encodes it. -/
  serializer : CodeRef
  deriving DecidableEq, Repr

/-- A version as declared. -/
structure VersionDecl where
  previous : Option String
  transformations : List Step
  changelog : Option String
  deriving DecidableEq, Repr

/-- **A schema whose references are resolved.** -/
structure Definition where
  currentVersion : String
  catalog : Catalog
  interfaces : OrderedMap Interface
  baseTypes : OrderedMap BaseType
  /-- The members of each super type, all of them base types. -/
  superTypes : OrderedMap (List String)
  customTypes : OrderedMap CustomType
  versions : OrderedMap VersionDecl
  deriving DecidableEq, Repr

namespace Definition

/-! ## Types -/

/-- Fields with their types read; every type is declared or native. -/
def readFields (catalog : Catalog) (mention : String → Mention) (fields : OrderedMap String) :
    Except SchemaError Layout :=
  fields.traverse fun field raw => do
    let ref ← TypeRef.parse raw
    if (catalog.category? ref.name).isSome then return ref
    else throw (.unknownType ref.name (mention field))

/-- Every name in a list is that of an interface. -/
def checkInterfaceNames (config : Config) (mention : Mention) (names : List String) :
    Except SchemaError Unit :=
  match names.find? fun name => !decide (name ∈ config.interfaces) with
  | some name => .error (.unknownType name mention)
  | none => .ok ()

/-- A base type: its fields first, then the interfaces that it implements. -/
def readBaseType (config : Config) (catalog : Catalog) (name : String)
    (written : BaseTypeConfig) : Except SchemaError BaseType := do
  let fields ← readFields catalog (fun field => .baseField field name) written.fields
  checkInterfaceNames config (.implementsList name) written.implemented
  return ⟨written.implemented, fields⟩

/-- The members of a super type are base types, none of them twice; `seen` came before. -/
def checkMembers (catalog : Catalog) (superType : String) :
    (members seen : List String) → Except SchemaError Unit
  | [], _ => .ok ()
  | member :: members, seen =>
    match catalog.category? member with
    | some .base =>
      if seen.contains member then
        .error (.duplicateTypeName member (.memberOf superType) .repeatedMember)
      else checkMembers catalog superType members (member :: seen)
    | some other => .error (.unknownType member (.memberOfCategory superType other))
    | none => .error (.unknownType member (.memberList superType))

/-- A super type. -/
def readSuperType (catalog : Catalog) (name : String) (members : List String) :
    Except SchemaError (List String) := do
  checkMembers catalog name members []
  return members

/-- A custom type. -/
def readCustomType (written : CustomTypeConfig) : Except SchemaError CustomType := do
  let representation ← CodeRef.parse written.representation
  let serializer ← CodeRef.parse written.serializer
  return ⟨representation, serializer⟩

/-! ## Interfaces -/

/-- Who extends whom, as written. -/
def hierarchy (config : Config) : Hierarchy := config.interfaces.map InterfaceConfig.extended

/-- Every interface extends only interfaces. -/
def checkExtensions (config : Config) : List (String × InterfaceConfig) → Except SchemaError Unit
  | [] => .ok ()
  | (name, written) :: rest => do
    checkInterfaceNames config (.extendsList name) written.extended
    checkExtensions config rest

/-- Fields of an interface, entered among those that it inherits. A field that is there
already must have the same type. -/
def inheritFields (interface : String) :
    List (String × TypeRef) → Layout → Except SchemaError Layout
  | [], all => .ok all
  | (field, type) :: rest, all =>
    match all.get? field with
    | none => inheritFields interface rest (all.insert field type)
    | some inherited =>
      if inherited = type then inheritFields interface rest all
      else .error (.interfaceMismatch interface interface field (.redeclared type inherited))

/-- The fields of several interfaces, entered one interface after the other. -/
def inheritAll (own : OrderedMap Layout) : List String → Layout → Except SchemaError Layout
  | [], all => .ok all
  | interface :: rest, all => do
    let all ← inheritFields interface ((own.get? interface).getD ∅).entries all
    inheritAll own rest all

/-- The interfaces: what they extend is declared, there is no circle, their fields have
known types, and they inherit without contradiction. -/
def readInterfaces (config : Config) (catalog : Catalog) :
    Except SchemaError (OrderedMap Interface) := do
  checkExtensions config config.interfaces.entries
  if let some circle := (hierarchy config).circle? then throw (.interfaceCycle circle)
  let own ← config.interfaces.traverse fun name written =>
    readFields catalog (fun field => .interfaceField field name) written.fields
  config.interfaces.traverse fun name written => do
    let ancestry ← (hierarchy config).ancestry name |>.mapError .interfaceCycle
    let all ← inheritAll own ancestry ∅
    return ⟨written.extended, (own.get? name).getD ∅, all⟩

/-! ## Versions -/

/-- A transformation: the type that it introduces is read before the code. -/
def readStep (written : StepConfig) : Except SchemaError Step := do
  let change ← written.change.traverse fun type code _ => do
    let type ← TypeRef.parse type
    let code ← CodeRef.parse code
    return (type, code)
  return ⟨written.type, change⟩

/-- A version. -/
def readVersion (written : VersionConfig) : Except SchemaError VersionDecl := do
  let transformations ← written.transformations.mapM readStep
  return ⟨written.previous, transformations, written.changelog⟩

/-- **The definition of a schema.** Sections are read in a fixed order, the first fault is
the answer. -/
def ofConfig (config : Config) : Except SchemaError Definition := do
  let catalog ← Catalog.ofConfig config
  let baseTypes ← config.baseTypes.traverse (readBaseType config catalog)
  let superTypes ← config.superTypes.traverse (readSuperType catalog)
  let customTypes ← config.customTypes.traverse fun _ written => readCustomType written
  let interfaces ← readInterfaces config catalog
  let versions ← config.versions.traverse fun _ written => readVersion written
  return {
    currentVersion := config.currentVersion
    catalog, interfaces, baseTypes, superTypes, customTypes, versions }

end Definition

end SchemaEvolution

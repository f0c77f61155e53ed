import SchemaEvolution.Config
import SchemaEvolution.SortedMap
import SchemaEvolution.TypeRef.Spelling

/-!
# The catalog of type names

Base types, super types, custom types and native types share one space of names, and
interfaces must stay clear of it.

## Main definitions

* `Catalog`: every type name with its category
* `Catalog.declare`: entering a name, refused when it is taken
* `Catalog.ofConfig`: the catalog of a schema
-/

namespace SchemaEvolution

/-- **The category of every declared and native type name.** -/
abbrev Catalog := SortedMap TypeCategory

namespace Catalog

/-- The category of a name. -/
def category? (catalog : Catalog) (name : String) : Option TypeCategory :=
  SortedMap.get? catalog name

/-- Whether values of a reference change from version to version. -/
def evolves (catalog : Catalog) (ref : TypeRef) : Bool :=
  ((catalog.category? ref.name).map TypeCategory.evolves).getD false

/-- The catalog with one more name, which must not be taken. -/
def declare (catalog : Catalog) (name : String) (category : TypeCategory) :
    Except SchemaError Catalog :=
  match catalog.category? name with
  | some first => .error (.duplicateTypeName name (.type first) (.type category))
  | none => .ok (catalog.insert name category)

/-- A declared name is a plain reference that is spelled exactly as it is. -/
def checkName (name : String) : Except SchemaError Unit := do
  let ref ← TypeRef.parse name
  if ref.isWrapped || ref.name != name then
    throw (.structuralNesting name .wrappedDeclaration)

/-- The catalog with the names of a section. -/
def declareAll (category : TypeCategory) : List String → Catalog → Except SchemaError Catalog
  | [], catalog => .ok catalog
  | name :: names, catalog => do
    checkName name
    let catalog ← catalog.declare name category
    declareAll category names catalog

/-- The native types. -/
def natives : Catalog :=
  .ofList (NativeType.all.map fun type => (type.name, .native type))

/-- No interface has the name of a type. -/
def checkInterfaces (catalog : Catalog) : List String → Except SchemaError Unit
  | [] => .ok ()
  | name :: names =>
    match catalog.category? name with
    | some category => .error (.duplicateTypeName name (.type category) .interface)
    | none => checkInterfaces catalog names

/-- **The catalog of a schema.** -/
def ofConfig (config : Config) : Except SchemaError Catalog := do
  let catalog ← declareAll .base config.baseTypes.keys natives
  let catalog ← declareAll .super config.superTypes.keys catalog
  let catalog ← declareAll .custom config.customTypes.keys catalog
  catalog.checkInterfaces config.interfaces.keys
  return catalog

end Catalog

end SchemaEvolution

import SchemaEvolution.Config
import SchemaEvolution.Json.Value

/-!
# Encoding schemas

How a schema is written as a document again. The members of each record are listed in the
order of their declaration, and whatever is left out stands as null; a transformation begins
with its kind.

## Main definitions

* `OrderedMap.json`: a map, with its entries in order
* `Transformation.json`: a transformation as written
* `Config.json`: a whole schema
-/

namespace SchemaEvolution

universe u

/-- A map, with its entries in order. -/
def OrderedMap.json {α : Type u} (item : α → Json) (map : OrderedMap α) : Json :=
  .object (map.entries.map fun (name, value) => (name, item value))

/-! ## Transformations -/

/-- The members of a transformation behind its kind and its type. -/
def FieldChange.jsonMembers : FieldChange String String → List (String × Json)
  | .move source target index =>
    [("from", .text source), ("to", .text target), ("index", .ofNumber? index)]
  | .insert field type initializer context index =>
    [("to", .text field), ("field_type", .text type), ("initializer", .text initializer),
      ("context", .texts context), ("index", .ofNumber? index)]
  | .remove field => [("from", .text field)]
  | .convert field type converter context =>
    [("from", .text field), ("new_type", .text type), ("converter", .text converter),
      ("context", .texts context)]

/-- A transformation as written. -/
def Transformation.json (step : StepConfig) : Json :=
  .object
    (("kind", .text step.change.kind.word) :: ("type", .text step.type) ::
      step.change.jsonMembers)

example : (Transformation.json ⟨"Point", .move "x" "left" none⟩).compact =
  "\x7b\"kind\":\"move\",\"type\":\"Point\",\"from\":\"x\",\"to\":\"left\",\"index\":null\x7d" := by
  decide

/-! ## Sections -/

/-- An interface. -/
def InterfaceConfig.json (interface : InterfaceConfig) : Json :=
  .object [("extends", .texts interface.extended), ("fields", interface.fields.json .text)]

/-- A base type. -/
def BaseTypeConfig.json (type : BaseTypeConfig) : Json :=
  .object [("implements", .texts type.implemented), ("fields", type.fields.json .text)]

/-- A custom type. -/
def CustomTypeConfig.json (type : CustomTypeConfig) : Json :=
  .object [("class", .text type.representation), ("serializer", .text type.serializer)]

/-- A version. -/
def VersionConfig.json (version : VersionConfig) : Json :=
  .object [
    ("previous", .ofText? version.previous),
    ("transformations", .array (version.transformations.map Transformation.json)),
    ("changelog", .ofText? version.changelog)]

/-- **A schema.** -/
def Config.json (config : Config) : Json :=
  .object [
    ("current_version", .text config.currentVersion),
    ("interfaces", config.interfaces.json InterfaceConfig.json),
    ("base_types", config.baseTypes.json BaseTypeConfig.json),
    ("super_types", config.superTypes.json .texts),
    ("custom_types", config.customTypes.json CustomTypeConfig.json),
    ("versions", config.versions.json VersionConfig.json)]

end SchemaEvolution

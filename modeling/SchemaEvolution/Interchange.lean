import SchemaEvolution.Compilation
import SchemaEvolution.Json.Value

/-!
# The interchange document

The document that is handed to whoever emits code: the chain of versions, every distinct
node, the node of each name at each version, the code that is called, and all upgrade paths.
The members of each object are listed by ascending name.

## Main definitions

* `Node.json`, `UpgradePath.json`: one node and one path
* `Compilation.json`: the whole document
-/

namespace SchemaEvolution

/-- The version of the document's format. -/
def interchangeFormat : String := "1.0"

/-! ## Versions and nodes -/

/-- A version of the chain. -/
def Version.json (version : Version) : Json :=
  .object [
    ("changelog", .ofText? version.changelog),
    ("current", .boolean version.isCurrent),
    ("index", .number version.index),
    ("name", .text version.name),
    ("previous", .ofText? version.previous),
    ("transformations", .number version.transformations.length)]

/-- A field of a record node. -/
def NodeField.json (field : NodeField) : Json :=
  .object [
    ("name", .text field.name),
    ("target", .number field.target),
    ("type", .text field.type.canonical)]

/-- A member of a union node. -/
def Member.json (member : Member) : Json :=
  .object [
    ("discriminant", .number member.discriminant.toNat),
    ("name", .text member.name),
    ("target", .number member.target)]

/-- **A node.** -/
def Node.json (node : Node) : Json :=
  let id := ("id", Json.number node.id)
  let kind := ("kind", Json.text node.kind.word)
  let name := ("name", Json.text node.name)
  let version := ("version", Json.ofNumber? node.version)
  match node.kind with
  | .base fields =>
    .object [("fields", .array (fields.map NodeField.json)), id, kind, name, version]
  | .super members =>
    .object [id, kind, ("members", .array (members.map Member.json)), name, version]
  | .custom representation serializer =>
    .object [("class", .text representation.spelling), id, kind, name,
      ("serializer", .text serializer.spelling), version]
  | .native type => .object [id, kind, name, ("native", .text type.name), version]
  | .nullable wrapped | .array wrapped =>
    .object [id, kind, name, ("of", .number wrapped), version]

/-- The node of each name at a version. -/
def Compilation.tableJson (compilation : Compilation) (version : Nat) : Json :=
  .object [
    ("types", .object
      ((compilation.graph.table version).map fun (name, id) => (name, .number id))),
    ("version", .text (compilation.chain.nameOf version))]

/-! ## Code references -/

/-- A code reference under its place. -/
def CodeRef.json (id : RefId) : CodeRef → Json
  | .construct path =>
    .object [("id", .number id), ("kind", .text "construct"), ("path", .text path)]
  | .staticField owner field =>
    .object [("field", .text field), ("id", .number id), ("kind", .text "static_field"),
      ("owner", .text owner)]

/-! ## Upgrade paths -/

/-- The identities that an upgrade leads through. -/
def Identity.jsonSteps (steps : List Identity) : Json := .texts (steps.map Identity.text)

/-- A field that migration code reads. -/
def ContextField.json (field : ContextField) : Json :=
  .object [("field", .text field.field), ("type", .text field.type.canonical)]

/-- What is handed to migration code. -/
def CodeContext.json : CodeContext → Json
  | none => .null
  | some fields => .array (fields.map ContextField.json)

/-- A computed value. -/
def ValueExpr.json : ValueExpr → Json
  | .oldField field => .object [("field", .text field), ("op", .text "old_field")]
  | .convert converter context input =>
    .object [
      ("context", CodeContext.json context),
      ("converter", .number converter),
      ("input", json input),
      ("op", .text "convert")]
  | .create initializer context =>
    .object [
      ("context", CodeContext.json context),
      ("initializer", .number initializer),
      ("op", .text "initialize")]
  | .upgrade wrapper source steps input =>
    .object [
      ("from", .text source.text),
      ("input", json input),
      ("op", .text "upgrade"),
      ("steps", Identity.jsonSteps steps),
      ("wrapper", .text wrapper.name)]

/-- An entry of the log of a record. -/
def FieldOperation.json : FieldOperation → Json
  | .carry field => .object [("field", .text field), ("op", .text "carry")]
  | .move source target =>
    .object [("from", .text source), ("op", .text "move"), ("to", .text target)]
  | .remove field => .object [("field", .text field), ("op", .text "remove")]
  | .insert field initializer =>
    .object [("field", .text field), ("initializer", .number initializer),
      ("op", .text "insert")]
  | .convert field converter =>
    .object [("converter", .number converter), ("field", .text field), ("op", .text "convert")]
  | .upgrade field steps =>
    .object [("field", .text field), ("op", .text "upgrade"),
      ("steps", Identity.jsonSteps steps)]

/-- The value of a new field. -/
def Assignment.json (assignment : Assignment) : Json :=
  .object [
    ("field", .text assignment.field),
    ("type", .text assignment.type.canonical),
    ("value", assignment.value.json)]

/-- What is done with a member. -/
def ArmAction.json : ArmAction → Json
  | .passThrough => .object [("op", .text "pass_through")]
  | .upgrade steps => .object [("op", .text "upgrade"), ("steps", Identity.jsonSteps steps)]

/-- The upgrade of a member. -/
def UnionArm.json (arm : UnionArm) : Json :=
  .object [
    ("action", arm.action.json),
    ("discriminant", .number arm.discriminant.toNat),
    ("from", .text arm.source.text),
    ("member", .text arm.member),
    ("to", .text arm.target.text)]

/-- **An upgrade path.** -/
def UpgradePath.json (path : UpgradePath) : Json :=
  let source := ("from", Json.text path.source.text)
  let target := ("to", Json.text path.target.text)
  let type := ("type", Json.text path.type)
  match path.body with
  | .record operations assignments =>
    .object [
      ("assignments", .array (assignments.map Assignment.json)),
      source,
      ("kind", .text "record"),
      ("operations", .array (operations.map FieldOperation.json)),
      target,
      type]
  | .union arms =>
    .object [("arms", .array (arms.map UnionArm.json)), source, ("kind", .text "union"), target,
      type]

/-! ## The document -/

/-- **The interchange document** of a schema. -/
def Compilation.json (compilation : Compilation) : Json :=
  let chain := compilation.chain
  let graph := compilation.graph
  let plan := compilation.plan
  .object [
    ("current_version", .text (chain.nameOf chain.currentIndex)),
    ("lineage", .text interchangeFormat),
    ("nodes", .array (graph.nodes.toList.map Node.json)),
    ("references", .array (plan.references.mapIdx CodeRef.json)),
    ("tables", .array ((List.range graph.versionCount).map compilation.tableJson)),
    ("upgrades", .array (plan.paths.map UpgradePath.json)),
    ("versions", .array (chain.versions.map Version.json))]

end SchemaEvolution

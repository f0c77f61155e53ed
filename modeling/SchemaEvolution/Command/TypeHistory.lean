import SchemaEvolution.Command.Summary
import SchemaEvolution.Interchange
import SchemaEvolution.TypeRef.Spelling

/-!
# The history of a type

The nodes of one name over the versions of a schema, each with the run of versions that it
stands for, and the upgrade paths between them.

## Main definitions

* `NodeSpan`, `NodeSpan.extend`: a node with its run of versions, and one more version
* `TypeHistory`, `Compilation.typeHistory`: the spans and upgrades of a name
* `TypeHistory.text`, `TypeHistory.json`: how they are written
-/

namespace SchemaEvolution

/-- **A node with the names of the versions that it stands for**, in order: the first one,
and the others. -/
structure NodeSpan where
  node : Node
  first : String
  others : List String
  deriving Repr

namespace NodeSpan

/-- The names of all versions of a span. -/
def versions (span : NodeSpan) : List String := span.first :: span.others

/-- The spans with a node for one more version, which belongs to the last span if that has the
same node. -/
def extend (node : Node) (version : String) : List NodeSpan → List NodeSpan
  | [] => [⟨node, version, []⟩]
  | [span] =>
    if span.node.id = node.id then [{ span with others := span.others ++ [version] }]
    else [span, ⟨node, version, []⟩]
  | span :: rest => span :: extend node version rest

/-- What text says of the versions of a span. -/
def covered (span : NodeSpan) : String :=
  match span.others.getLast? with
  | none => span.first
  | some last => span.first ++ " .. " ++ last

end NodeSpan

/-- **The history of a type.** -/
structure TypeHistory where
  type : String
  spans : List NodeSpan
  upgrades : List UpgradePath
  deriving Repr

/-- The history of a type that is spelled as in a schema. -/
def Compilation.typeHistory (compilation : Compilation) (spelling : String) :
    Except SchemaError TypeHistory := do
  let type := (← TypeRef.parse spelling).canonical
  let spans ← compilation.chain.versions.foldlM
    (fun spans version => do
      let node ← compilation.graph.nodeAt type version.index
      return NodeSpan.extend node version.name spans)
    []
  return ⟨type, spans, compilation.plan.pathsFor type⟩

/-! ## As text -/

/-- The identity of the node of an identifier. -/
def Graph.identityText (graph : Graph) (id : NodeId) : String :=
  ((graph.nodes[id]?).map fun node => node.identity.text).getD ""

/-- What text says of the shape of a node. -/
def Graph.shape (graph : Graph) (node : Node) : String :=
  match node.kind with
  | .base fields =>
    let field (field : NodeField) := field.name ++ ": " ++ field.type.canonical
    "\x7b " ++ ", ".intercalate (fields.map field) ++ " \x7d"
  | .super members =>
    let member (member : Member) :=
      toString member.discriminant ++ "=" ++ graph.identityText member.target
    "[" ++ ", ".intercalate (members.map member) ++ "]"
  | .custom representation _ => representation.spelling
  | .native type => type.name
  | .nullable wrapped | .array wrapped => "of " ++ graph.identityText wrapped

/-- What text says of the steps of an upgrade. -/
def UpgradeBody.steps : UpgradeBody → String
  | .record operations _ => s!"{operations.length} field operations"
  | .union arms =>
    let upgraded := arms.filter fun arm =>
      match arm.action with
      | .upgrade _ => true
      | .passThrough => false
    s!"{arms.length} arms, {upgraded.length} upgraded"

namespace TypeHistory

/-- The line of a span. -/
def spanLine (graph : Graph) (span : NodeSpan) : String :=
  "  " ++ padRight 20 span.node.identity.text ++ " " ++ padRight 24 span.covered ++ " " ++
    graph.shape span.node ++ "\n"

/-- The line of an upgrade path. -/
def upgradeLine (path : UpgradePath) : String :=
  "  upgrade " ++ path.source.text ++ " -> " ++ path.target.text ++ ": " ++ path.body.steps ++ "\n"

/-- **The history as text.** -/
def text (graph : Graph) (history : TypeHistory) : String :=
  let title :=
    match history.spans with
    | [] => ""
    | span :: _ => history.type ++ " (" ++ span.node.kind.word ++ ")\n"
  title ++ String.join (history.spans.map (spanLine graph)) ++
    String.join (history.upgrades.map upgradeLine)

/-! ## As JSON -/

/-- A span as JSON. -/
def spanJson (span : NodeSpan) : Json :=
  .object [("node", span.node.json), ("versions", .texts span.versions)]

/-- **The history as JSON.** -/
def json (history : TypeHistory) : Json :=
  .object [
    ("nodes", .array (history.spans.map spanJson)),
    ("type", .text history.type),
    ("upgrades", .array (history.upgrades.map UpgradePath.json))]

end TypeHistory

end SchemaEvolution

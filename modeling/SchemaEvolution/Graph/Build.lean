import SchemaEvolution.Graph
import SchemaEvolution.Graph.Closure
import SchemaEvolution.History
import SchemaEvolution.Slots
import SchemaEvolution.Workers

/-!
# Building the type graph

The graph is built backwards. The current version gets a node for every name; each version before it
gets new nodes for the types that change after it and for all that depend on them, and shares every
other node with the version after it. At each version the names get their places first, one after
the other. Then the workers build the new nodes, in any order, and put them into their slots.

## Main definitions

* `Entry`: what a name of the graph stands for
* `Blueprint`: a schema with its history and all names of its graph
* `Blueprint.node`: the node of a name at a version
* `Arena`: a slot for each node, written once
* `Draft.extend`, `Draft.walkBack`: one more version, all versions before one
* `Graph.build`: the graph of a schema
-/

namespace SchemaEvolution

/-- What a name of the graph stands for: a type, or a wrapped reference to one. -/
inductive Entry where
  | declared (category : TypeCategory)
  | wrapper (ref : TypeRef)
  deriving DecidableEq, Repr

/-- A schema with its history and what each name of its graph stands for. -/
structure Blueprint where
  definition : Definition
  history : History
  entries : SortedMap Entry

namespace Blueprint

/-- Every type reference that the graph has to know: those of all layouts at all versions,
those that a transformation introduces, even if its field goes again, and those of
interfaces. -/
def typeRefs (definition : Definition) (chain : Chain) (history : History) : List TypeRef :=
  (history.stages.flatMap fun stage => stage.layouts.values.flatMap OrderedMap.values) ++
    (chain.versions.flatMap fun version =>
      version.transformations.filterMap fun step => step.change.introduced?) ++
    definition.interfaces.values.flatMap fun interface => interface.fields.values

/-- What the names of the graph stand for: all types, and the wrapped ones of the type
references. -/
def entriesOf (catalog : Catalog) (refs : List TypeRef) : SortedMap Entry :=
  (refs.filter TypeRef.isWrapped).foldl
    (fun entries ref => entries.insertNew ref.canonical (.wrapper ref))
    (catalog.map fun _ category => .declared category)

/-- The blueprint of a schema. -/
def ofDefinition (definition : Definition) (chain : Chain) (history : History) : Blueprint where
  definition := definition
  history := history
  entries := entriesOf definition.catalog (typeRefs definition chain history)

/-- The names of the graph, ascending. -/
def names (blueprint : Blueprint) : List String := blueprint.entries.keys

/-- Whether the nodes of a name have versions. -/
def evolves (blueprint : Blueprint) (name : String) : Bool :=
  match blueprint.entries.get? name with
  | some (.declared category) => category.evolves
  | some (.wrapper ref) => blueprint.definition.catalog.evolves ref
  | none => false

/-- The list without repetitions; the first of equal names stays. -/
def dedup (names : List String) : List String := names.foldl addUnlessSeen []

/-- The names that a name refers to at a version. -/
def references (blueprint : Blueprint) (version : Nat) (name : String) : Entry → List String
  | .declared .base =>
    match blueprint.history.layout? version name with
    | some layout => dedup (layout.values.map TypeRef.canonical)
    | none => []
  | .declared .super => (blueprint.definition.superTypes.get? name).getD []
  | .declared (.custom) | .declared (.native _) => []
  | .wrapper ref => [ref.name]

/-- The references of all names at a version. -/
def row (blueprint : Blueprint) (version : Nat) : SortedMap (List String) :=
  blueprint.entries.map (blueprint.references version)

/-! ## Nodes -/

/-- A field of a record node. -/
def field (index : Index) (version : Nat) (entry : String × TypeRef) :
    Except SchemaError NodeField := do
  let target ← index.resolve entry.2.canonical version
  return ⟨entry.1, entry.2, target⟩

/-- The members of a union node from a place on. -/
def membersFrom (index : Index) (version : Nat) :
    (place : Nat) → List String → Except SchemaError (List Member)
  | _, [] => .ok []
  | place, name :: names => do
    let target ← index.resolve name version
    let rest ← membersFrom index version (place + 1) names
    return ⟨UInt32.ofNat place, name, target⟩ :: rest

/-- The body of the node of a name at a version; the nodes that it refers to are in the
index. -/
def body (blueprint : Blueprint) (index : Index) (version : Nat) (name : String) :
    Except SchemaError NodeKind :=
  match blueprint.entries.get? name with
  | some (.declared .base) =>
    match blueprint.history.layout? version name with
    | none => .error (.internal s!"no layout for '{name}' at version {version}")
    | some layout => do
      let fields ← layout.entries.mapM (field index version)
      return .base fields
  | some (.declared .super) => do
    let members := (blueprint.definition.superTypes.get? name).getD []
    return .super (← membersFrom index version 0 members)
  | some (.declared .custom) =>
    match blueprint.definition.customTypes.get? name with
    | some custom => .ok (.custom custom.representation custom.serializer)
    | none => .error (.unknownType name .typeGraph)
  | some (.declared (.native type)) => .ok (.native type)
  | some (.wrapper ref) => do
    let wrapped ← index.resolve ref.name version
    match ref.modifier with
    | .nullable => return .nullable wrapped
    | .array => return .array wrapped
    | .plain => throw (.internal s!"wrapper '{name}' without a modifier")
  | none => .error (.unknownType name .typeGraph)

/-- **The node of a name at a version**, under the id that is reserved for it. -/
def node (blueprint : Blueprint) (index : Index) (version : Nat) (job : String × NodeId) :
    Except SchemaError Node := do
  let kind ← blueprint.body index version job.1
  return ⟨job.2, job.1, if blueprint.evolves job.1 then some version else none, kind⟩

end Blueprint

/-! ## The arena -/

/-- **The arena**: a slot for each node. -/
abbrev Arena := Slots Node

namespace Arena

/-- The arena with a node in its slot. -/
def fill (arena : Arena) (node : Node) : Except SchemaError Arena :=
  match Slots.fill arena node.id node with
  | .ok arena => .ok arena
  | .error .absent => .error (.internal s!"node {node.id} was never allocated")
  | .error .taken => .error (.internal s!"node {node.id} filled twice")

/-- The nodes of all slots. -/
def nodes (arena : Arena) : Except SchemaError (List Node) :=
  arena.values fun place => .internal s!"node {place} never filled"

end Arena

/-- The job for a node: it is built and put into its slot. -/
def Blueprint.fill (blueprint : Blueprint) (index : Index) (version : Nat) (job : String × NodeId)
    (arena : Arena) : Except SchemaError Arena := do
  arena.fill (← blueprint.node index version job)

/-! ## The walk back from the current version -/

/-- The graph as far as it is built: from some version to the current one. -/
structure Draft where
  arena : Arena
  index : Index
  /-- The changed types of the versions that are built, the earliest first. -/
  changed : List NameSet

namespace Draft

/-- **A place for every name** at a version: a slot of its own for one that gets a new node, the
node of the version after for all others. -/
def reserve (version : Nat) (isNew : String → Bool) :
    (names : List String) → Arena → Index.Action (List (String × NodeId) × Arena)
  | [], arena => return ([], arena)
  | name :: names, arena =>
    if isNew name then do
      let (id, arena) := arena.alloc
      Index.enter name version id
      let (jobs, arena) ← reserve version isNew names arena
      return ((name, id) :: jobs, arena)
    else do
      let index ← get
      let _ ← Index.resolveOrEnter name version fun _ => index.resolve name (version + 1)
      reserve version isNew names arena

/-- **One more version**: first every name gets its place, then the workers build the new nodes and
put them into their slots. -/
def extend (workers : Nat) (blueprint : Blueprint) (version : Nat) (isNew : String → Bool)
    (changed : NameSet) (draft : Draft) : Except SchemaError Draft := do
  let ((jobs, arena), index) ←
    (reserve version isNew blueprint.names draft.arena).outcome draft.index
  let arena ← Workers.settle (Workers.forEach workers jobs
    (fun job => Workers.step (blueprint.fill index version job)) arena)
  return ⟨arena, index, changed :: draft.changed⟩

/-- The graph with the nodes of all versions before `version`, the last of them first. -/
def walkBack (workers : Nat) (blueprint : Blueprint) :
    (version : Nat) → Draft → Except SchemaError Draft
  | 0, draft => .ok draft
  | version + 1, draft => do
    let seed := ((blueprint.history.snapshots version).filter Snapshot.differsFromNext).map
      Snapshot.type
    let closed := draft.index.closure (version + 1) seed
    let draft ← draft.extend workers blueprint version (fun name => decide (name ∈ closed)) closed
    walkBack workers blueprint version draft

end Draft

/-- **The graph of a schema.** -/
def Graph.build (workers : Nat) (definition : Definition) (chain : Chain) (history : History) :
    Except SchemaError Graph := do
  if chain.size = 0 || history.size != chain.size then
    throw (.internal
      s!"layout history covers {history.size} versions but the chain has {chain.size}")
  let current := chain.size - 1
  let blueprint := Blueprint.ofDefinition definition chain history
  let empty : Draft :=
    ⟨.ofSize 0, .ofReferences ((List.range chain.size).map blueprint.row), []⟩
  let draft ← empty.extend workers blueprint current (fun _ => true) ∅
  let draft ← draft.walkBack workers blueprint current
  let nodes ← draft.arena.nodes
  let graph : Graph := ⟨nodes.toArray, draft.index, draft.changed⟩
  graph.checkDiscriminants graph.nodes.toList
  return graph

end SchemaEvolution

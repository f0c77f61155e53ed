import SchemaEvolution.Graph.Node

/-!
# The type graph

The graph holds every distinct state of every type. A type that does not change from one
version to the next has the same node at both; a node's version is the last one that it is in
force for.

## Main definitions

* `Graph`: the nodes, the index that finds them, and the types that change after a version
* `Graph.nodeAt`, `Graph.resolve`: a node by name and version, and by its identity
* `Graph.labels`, `Graph.successor`: the versions of a type's nodes, and the next node
* `Graph.upgradeChain`, `Graph.Loops`: the nodes that an upgrade leads through, and the loop over
  them on numbers of a fixed width
* `Graph.checkDiscriminants`: members of super types keep their numbers

## Main results

* `Graph.distance_lt`: an upgrade chain comes nearer to its end with each node
-/

namespace SchemaEvolution

/-- **The type graph.** -/
structure Graph where
  /-- The distinct nodes; a node's id is its place. -/
  nodes : Array Node
  /-- The node of each name at each version. -/
  index : Index
  /-- For each version, the types whose node at the next one is another. -/
  changed : List NameSet
  deriving DecidableEq, Repr, Inhabited

namespace Graph

/-- The number of versions. -/
def versionCount (graph : Graph) : Nat := graph.index.size

/-- The current version. -/
def current (graph : Graph) : Nat := graph.versionCount - 1

/-- The node at a place. No worker gets over a place that is not there, and neither does the whole
compilation where it looks up the place itself. -/
def node (graph : Graph) (id : NodeId) : Except SchemaError Node :=
  match graph.nodes[id]? with
  | some node => .ok node
  | none => .error .workerLost

/-- The node in force for a name at a version. -/
def nodeAt (graph : Graph) (name : String) (version : Nat) : Except SchemaError Node := do
  graph.node (← graph.index.resolve name version)

/-- The node with an identity. The version has to be one that a node is named for. -/
def resolve (graph : Graph) (identity : Identity) : Except SchemaError Node := do
  let version := identity.version.getD 0
  let node ← graph.nodeAt identity.name version
  if node.version = identity.version then return node
  else throw (.typeNotFound identity.name version)

/-- The labels of a name's nodes at the given versions; one that repeats the last label so
far is left out. -/
def labelsAmong (graph : Graph) (name : String) :
    (versions labels : List Nat) → Except SchemaError (List Nat)
  | [], labels => .ok labels
  | version :: versions, labels => do
    match (← graph.nodeAt name version).version with
    | none => labelsAmong graph name versions labels
    | some label =>
      if labels.getLast? = some label then labelsAmong graph name versions labels
      else labelsAmong graph name versions (labels ++ [label])

/-- **The labels of a name**: the versions of its nodes, ascending; none for leaves. -/
def labels (graph : Graph) (name : String) : Except SchemaError (List Nat) :=
  graph.labelsAmong name (List.range graph.versionCount) []

/-- The node that follows a node at the next version; none behind the current version. -/
def successor (graph : Graph) (node : Node) : Except SchemaError (Option Node) :=
  match node.version with
  | some version =>
    if version < graph.current then (graph.nodeAt node.name (version + 1)).map some else .ok none
  | none => .ok none

/-- A label behind the cursor is nearer to the end of a chain. -/
theorem distance_lt {cursor label last : Nat} (before : cursor < last) (ahead : cursor < label) :
    last - label < last - cursor := by
  omega

/-- **The nodes that an upgrade leads through**, from behind the node labelled `cursor` to the one
labelled `last`. A node that does not lie ahead would break the graph; that check makes the recursion
end on every graph. The loop that is meant has no such check. It is `Graph.Loops`, and on the graph
of a compiled schema, where every node lies ahead, both have the same results
(`Built.eq_of_loops`, `Built.loops_upgradeChain`). -/
def upgradeChain (graph : Graph) (name : String) (cursor last : Nat) :
    Except SchemaError (List Identity) :=
  if _before : cursor < last then
    match graph.nodeAt name (cursor + 1) with
    | .error e => .error e
    | .ok next =>
      match next.version with
      | none => .ok []
      | some label =>
        if last < label then
          .error (.internal s!"upgrade chain of '{name}' skips past version {last}")
        else if _ahead : cursor < label then
          (upgradeChain graph name label last).map (next.identity :: ·)
        else .error (.internal s!"node '{next.identity.text}' is not in force behind {cursor}")
  else .ok []
  termination_by last - cursor
  decreasing_by exact distance_lt _before _ahead

/-- **The loop of an upgrade chain on numbers of 64 bits**, from a cursor to the last version. It
looks up the node behind the cursor, at a version whose number has to fit, and goes on from the
label of the node, wherever that is. -/
inductive Loops (graph : Graph) (name : String) (last : Nat) :
    Nat → Except SchemaError (List Identity) → Prop
  | done {cursor : Nat} (h : last ≤ cursor) : Loops graph name last cursor (.ok [])
  | missing {cursor : Nat} {e : SchemaError} (h : cursor < last)
      (hfits : Word.fits 64 (cursor + 1) = true)
      (hnode : graph.nodeAt name (cursor + 1) = .error e) :
      Loops graph name last cursor (.error e)
  | leaf {cursor : Nat} {node : Node} (h : cursor < last)
      (hfits : Word.fits 64 (cursor + 1) = true)
      (hnode : graph.nodeAt name (cursor + 1) = .ok node) (hversion : node.version = none) :
      Loops graph name last cursor (.ok [])
  | skip {cursor label : Nat} {node : Node} (h : cursor < last)
      (hfits : Word.fits 64 (cursor + 1) = true)
      (hnode : graph.nodeAt name (cursor + 1) = .ok node) (hversion : node.version = some label)
      (hpast : last < label) : Loops graph name last cursor
        (.error (.internal s!"upgrade chain of '{name}' skips past version {last}"))
  | step {cursor label : Nat} {node : Node} {result : Except SchemaError (List Identity)}
      (h : cursor < last) (hfits : Word.fits 64 (cursor + 1) = true)
      (hnode : graph.nodeAt name (cursor + 1) = .ok node) (hversion : node.version = some label)
      (hle : label ≤ last) (hrest : Loops graph name last label result) :
      Loops graph name last cursor (result.map (node.identity :: ·))

/-- The types whose node at the version after a given one is another. -/
def changedAt? (graph : Graph) (version : Nat) : Option NameSet := graph.changed[version]?

/-- **Every name with its node** at a version, by name. -/
def table (graph : Graph) (version : Nat) : List (String × NodeId) :=
  (graph.index.names version).filterMap fun name =>
    match graph.index.resolve name version with
    | .ok id => some (name, id)
    | .error _ => none

/-! ## Discriminants -/

/-- The members of a union node are members of the next one, under the same numbers. -/
def checkMembers (node next : Node) : List Member → Except SchemaError Unit
  | [] => .ok ()
  | member :: rest =>
    match next.members.find? fun later => later.name == member.name with
    | none =>
      .error (.internal
        (s!"super type '{node.name}' drops member '{member.name}' after version " ++
          toString (node.version.getD 0)))
    | some later =>
      if later.discriminant = member.discriminant then checkMembers node next rest
      else .error (.discriminantRenumbered node.name member.name member.discriminant
        later.discriminant (next.version.getD 0))

/-- **Members of super types keep their numbers**, and none goes. -/
def checkDiscriminants (graph : Graph) : List Node → Except SchemaError Unit
  | [] => .ok ()
  | node :: rest =>
    match node.kind with
    | .super members => do
      if let some next ← graph.successor node then checkMembers node next members
      checkDiscriminants graph rest
    | _ => checkDiscriminants graph rest

end Graph

end SchemaEvolution

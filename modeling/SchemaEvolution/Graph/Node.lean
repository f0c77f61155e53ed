import SchemaEvolution.CodeRef
import SchemaEvolution.Graph.Index

/-!
# Nodes of the type graph

A node is one state of a type that is in force for one or more versions in a row. It refers
to other nodes by their place in the graph.

## Main definitions

* `Identity`: the name of a node: a type name and, for types that evolve, a version
* `NodeKind`, `Node`: the body of a node and the node
-/

namespace SchemaEvolution

/-- **The identity of a node**: the name of the type and the last version that the node is in
force for; leaves and what wraps them have no version. -/
structure Identity where
  name : String
  version : Option Nat
  deriving DecidableEq, Repr, Inhabited

/-- The text of an identity: `name@version`, or the name alone. -/
def Identity.text (identity : Identity) : String :=
  match identity.version with
  | some version => identity.name ++ "@" ++ toString version
  | none => identity.name

/-- A field of a record node. -/
structure NodeField where
  name : String
  type : TypeRef
  /-- The node that the type refers to. -/
  target : NodeId
  deriving DecidableEq, Repr, Inhabited

/-- A member of a union node. -/
structure Member where
  /-- The place of the member, which never changes. -/
  discriminant : UInt32
  name : String
  target : NodeId
  deriving DecidableEq, Repr, Inhabited

/-- **The body of a node.** -/
inductive NodeKind where
  | base (fields : List NodeField)
  | super (members : List Member)
  | custom (representation serializer : CodeRef)
  | native (type : NativeType)
  | nullable (wrapped : NodeId)
  | array (wrapped : NodeId)
  deriving DecidableEq, Repr, Inhabited

/-- The word for a body in the interchange document. -/
def NodeKind.word : NodeKind → String
  | base _ => "base"
  | super _ => "super"
  | custom .. => "custom"
  | native _ => "native"
  | nullable _ => "nullable"
  | array _ => "array"

/-- **A node.** -/
structure Node where
  id : NodeId
  /-- The declared name, or the canonical spelling of a wrapped reference. -/
  name : String
  /-- The last version that the node is in force for; none for leaves. -/
  version : Option Nat
  kind : NodeKind
  deriving DecidableEq, Repr, Inhabited

namespace Node

/-- The identity of a node. -/
def identity (node : Node) : Identity := ⟨node.name, node.version⟩

/-- The fields of a node; none unless it is a record. -/
def fields (node : Node) : List NodeField :=
  match node.kind with
  | .base fields => fields
  | _ => []

/-- The members of a node; none unless it is a union. -/
def members (node : Node) : List Member :=
  match node.kind with
  | .super members => members
  | _ => []

end Node

end SchemaEvolution

import SchemaEvolution.Graph.Node

/-!
# Upgrade plans

An upgrade path says how an instance of one node becomes an instance of the next node of the
same type: field by field for a record, member by member for a union.

## Main definitions

* `ValueExpr`: how the value of a new field is computed from the old instance
* `FieldOperation`: what happened to a field, as a log
* `UpgradeBody`, `UpgradePath`: the upgrade of a record or a union
* `UpgradePlan`: all paths, with the code that they call
-/

namespace SchemaEvolution

/-- The place of a code reference in a plan. -/
abbrev RefId := Nat

/-- A field of the old instance that migration code reads. -/
structure ContextField where
  field : String
  type : TypeRef
  deriving DecidableEq, Repr, Inhabited

/-- The fields that are handed to migration code; none where it asks for no context. -/
abbrev CodeContext := Option (List ContextField)

/-- **How a value is computed** from the old instance. -/
inductive ValueExpr where
  /-- The value of a field of the old instance. -/
  | oldField (field : String)
  /-- What a converter makes of a value. -/
  | convert (converter : RefId) (context : CodeContext) (input : ValueExpr)
  /-- What an initializer yields. -/
  | create (initializer : RefId) (context : CodeContext)
  /-- A value whose own type is upgraded, inside its nullable or array. -/
  | upgrade (wrapper : Modifier) (source : Identity) (steps : List Identity) (input : ValueExpr)
  deriving DecidableEq, Repr, Inhabited

/-- The value of a new field. -/
structure Assignment where
  field : String
  type : TypeRef
  value : ValueExpr
  deriving DecidableEq, Repr, Inhabited

/-- **What happened to a field.** -/
inductive FieldOperation where
  | carry (field : String)
  | move (source target : String)
  | remove (field : String)
  | insert (field : String) (initializer : RefId)
  | convert (field : String) (converter : RefId)
  | upgrade (field : String) (steps : List Identity)
  deriving DecidableEq, Repr, Inhabited

/-- What is done with the value of a member. -/
inductive ArmAction where
  | passThrough
  | upgrade (steps : List Identity)
  deriving DecidableEq, Repr, Inhabited

/-- The upgrade of one member of a union. -/
structure UnionArm where
  discriminant : UInt32
  member : String
  source : Identity
  target : Identity
  action : ArmAction
  deriving DecidableEq, Repr, Inhabited

/-- The body of an upgrade path. -/
inductive UpgradeBody where
  /-- The log of what happened to the fields, and a value for each new field, in order. -/
  | record (operations : List FieldOperation) (assignments : List Assignment)
  /-- What is done with each member, in order. -/
  | union (arms : List UnionArm)
  deriving DecidableEq, Repr, Inhabited

/-- **An upgrade path**: from a node to the next node of the same type. -/
structure UpgradePath where
  type : String
  source : Identity
  target : Identity
  body : UpgradeBody
  deriving DecidableEq, Repr, Inhabited

/-- **An upgrade plan.** -/
structure UpgradePlan where
  /-- The converters and initializers, each once, in the order of their first use. -/
  references : List CodeRef
  /-- The paths by source version, then by type name. -/
  paths : List UpgradePath
  deriving DecidableEq, Repr, Inhabited

namespace UpgradePlan

/-- The code reference at a place. -/
def reference? (plan : UpgradePlan) (id : RefId) : Option CodeRef := plan.references[id]?

/-- The path of a type from the node with a label. -/
def path? (plan : UpgradePlan) (type : String) (label : Nat) : Option UpgradePath :=
  plan.paths.find? fun path => path.type == type && path.source.version == some label

/-- The paths of a type, in order. -/
def pathsFor (plan : UpgradePlan) (type : String) : List UpgradePath :=
  plan.paths.filter fun path => path.type == type

end UpgradePlan

end SchemaEvolution

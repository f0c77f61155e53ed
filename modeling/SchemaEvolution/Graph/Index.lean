import SchemaEvolution.Error
import SchemaEvolution.Graph.References

/-!
# The dependency index

At every version the index knows the names of all types, which other types each one refers to, and
which node stands for it. The node of a name at a version is entered once and never changes after
that.

## Main definitions

* `Index`: for each version, the references and the node of every name
* `Index.references`, `Index.dependents`: who refers to whom, in both directions
* `Index.resolve`: the node of a name at a version
* `Index.Action`: what is done with an index, be it in vain
* `Index.enter`, `Index.resolveOrEnter`: entering the node of a name at a version
* `Index.bind`, `Index.resolveOrBind`: what comes of it if it succeeds

## Main results

* `Index.dependents_eq_filter`: the dependents of a name are the names that refer to it, ascending
-/

namespace SchemaEvolution

/-- The place of a node in the graph. -/
abbrev NodeId := Nat

/-- What the index knows of one name at one version. -/
structure Slot where
  /-- The types that it refers to directly. -/
  references : List String
  /-- The node that stands for it, once it is entered. -/
  node : Option NodeId
  deriving DecidableEq, Repr, Inhabited

/-- **The dependency index**: for each version, what is known of every name. -/
structure Index where
  rows : List (SortedMap Slot)
  deriving DecidableEq, Repr, Inhabited

namespace Index

/-- The index of the given references, without nodes. -/
def ofReferences (references : List (SortedMap (List String))) : Index :=
  ⟨references.map fun row => row.map fun _ targets => ⟨targets, none⟩⟩

/-- The number of versions. -/
def size (index : Index) : Nat := index.rows.length

/-- What is known at a version; nothing at one that does not exist. -/
def row (index : Index) (version : Nat) : SortedMap Slot := (index.rows[version]?).getD ∅

/-- The names at a version, ascending. -/
def names (index : Index) (version : Nat) : List String := (index.row version).keys

/-- The types that a name refers to directly. -/
def references (index : Index) (name : String) (version : Nat) : List String :=
  (((index.row version).get? name).map Slot.references).getD []

/-- What the names at a version refer to. -/
def tableAt (index : Index) (version : Nat) : References :=
  (index.row version).map fun _ slot => slot.references

/-- The types that refer directly to a name, ascending. -/
def dependents (index : Index) (name : String) (version : Nat) : List String :=
  (index.tableAt version).invert.listed name

theorem dependents_eq_filter (index : Index) (name : String) (version : Nat) :
    index.dependents name version =
      ((index.row version).entries.filter fun entry =>
        entry.2.references.contains name).map Prod.fst := by
  rw [dependents, References.listed_invert, tableAt, SortedMap.map, List.filter_map, List.map_map]
  rfl

/-- What is known of a name at a version, which has to be known. -/
def slot (index : Index) (name : String) (version : Nat) : Except SchemaError Slot :=
  match (index.row version).get? name with
  | some slot => .ok slot
  | none => .error (.typeNotFound name version)

/-- The node of a name at a version, which has to be entered. -/
def resolve (index : Index) (name : String) (version : Nat) : Except SchemaError NodeId := do
  match (← index.slot name version).node with
  | some node => return node
  | none => throw (.typeNotFound name version)

/-- The index with a node for a name at a version. -/
def store (index : Index) (name : String) (version : Nat) (node : NodeId) : Index where
  rows := index.rows.modify version fun row =>
    row.map fun other slot => if other = name then { slot with node := some node } else slot

/-! ## Entering nodes -/

/-- **What is done with an index**, be it in vain: the index behind it is there in any case. -/
abbrev Action (α : Type) := ExceptT SchemaError (StateM Index) α

/-- What an action comes to if it succeeds, and the index behind it. -/
def Action.outcome {α : Type} (action : Action α) (index : Index) :
    Except SchemaError (α × Index) :=
  match action.run index with
  | (.ok value, index) => .ok (value, index)
  | (.error e, _) => .error e

/-- **Entering the node of a name** at a version, where none may be entered yet. -/
def enter (name : String) (version : Nat) (node : NodeId) : Action Unit := do
  let index ← get
  match (← index.slot name version).node with
  | none => set (index.store name version node)
  | some _ => throw (.internal s!"node for '{name}' at version {version} bound twice")

/-- **The node of a name at a version**, computed and entered if there is none yet, and whether it
had to be computed. -/
def resolveOrEnter (name : String) (version : Nat) (compute : Unit → Except SchemaError NodeId) :
    Action (NodeId × Bool) := do
  let index ← get
  match (← index.slot name version).node with
  | some node => return (node, false)
  | none =>
    let node ← compute ()
    set (index.store name version node)
    return (node, true)

/-- The index behind the entry of a node. -/
def bind (index : Index) (name : String) (version : Nat) (node : NodeId) :
    Except SchemaError Index :=
  ((enter name version node).outcome index).map Prod.snd

/-- What a look-up that may enter a node comes to. -/
structure Lookup where
  node : NodeId
  /-- Whether the node had to be computed. -/
  computed : Bool
  index : Index

/-- The node of a name at a version, with the index behind the look-up. -/
def resolveOrBind (index : Index) (name : String) (version : Nat)
    (compute : Unit → Except SchemaError NodeId) : Except SchemaError Lookup :=
  ((resolveOrEnter name version compute).outcome index).map fun ((node, computed), index) =>
    ⟨node, computed, index⟩

end Index

end SchemaEvolution

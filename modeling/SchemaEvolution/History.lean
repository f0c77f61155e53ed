import SchemaEvolution.Chain
import SchemaEvolution.SortedMap

/-!
# The history of layouts

Replaying the transformations of each version on the layouts of the version before gives the
layouts of all base types at all versions.

## Main definitions

* `Layouts`: the layouts of all base types at one version
* `Layouts.replay`: the transformations of one version
* `History`: the layouts at every version, and the types that each version changes
* `History.ofChain`: the history of a schema
* `Snapshot`: one base type at one version
* `History.checkInterfaces`: every base type has the fields of its interfaces
-/

namespace SchemaEvolution

/-- **The layouts of all base types** at one version. -/
abbrev Layouts := OrderedMap Layout

namespace Layouts

/-- The target of a transformation is a base type, and what it introduces is a known type. -/
def checkStep (catalog : Catalog) (version : String) (step : Step) : Except SchemaError Unit :=
  match catalog.category? step.type with
  | some .base =>
    match step.change.introduced? with
    | none => .ok ()
    | some introduced =>
      if (catalog.category? introduced.name).isSome then .ok ()
      else .error (.unknownType introduced.name
        (.introduced step.change.kind step.type version))
  | some _ => .error (.notABaseType step.type version)
  | none => .error (.unknownType step.type (.target step.change.kind version))

/-- The fields that a transformation reads exist at the version before. -/
def checkContext (previous : Layouts) (version : String) (step : Step) :
    Except SchemaError Unit :=
  match previous.get? step.type with
  | none => .error (.internal s!"no layout for base type '{step.type}'")
  | some before =>
    match step.change.context.find? fun field => !decide (field ∈ before) with
    | some field => .error (.fieldMissing ⟨step.type, version⟩ field)
    | none => .ok ()

/-- **One transformation** on the layouts that the transformations before it have led to. -/
def applyStep (version : String) (step : Step) (working : Layouts) : Except SchemaError Layouts :=
  match working.get? step.type with
  | none => .error (.internal s!"no working layout for base type '{step.type}'")
  | some layout => do
    let layout ← layout.apply ⟨step.type, version⟩ step.change
    return working.replace step.type layout

/-- The transformations of one version from some point on: on the layouts and the changed
types so far. Each sees the effects of those before it, but reads from `previous`. -/
def replayFrom (catalog : Catalog) (version : String) (previous : Layouts) :
    List Step → Layouts × NameSet → Except SchemaError (Layouts × NameSet)
  | [], state => .ok state
  | step :: steps, (working, changed) => do
    checkStep catalog version step
    checkContext previous version step
    let working ← applyStep version step working
    replayFrom catalog version previous steps (working, NameSet.add changed step.type)

/-- **The transformations of one version**: the layouts that they lead to, and the types that
they change. -/
def replay (catalog : Catalog) (version : String) (previous : Layouts) (steps : List Step) :
    Except SchemaError (Layouts × NameSet) :=
  replayFrom catalog version previous steps (previous, ∅)

end Layouts

/-! ## All versions -/

/-- What is known of one version: the layouts, the types that the version changes, and its
transformations. -/
structure Stage where
  layouts : Layouts
  changed : NameSet
  transformations : List Step
  deriving DecidableEq, Repr

/-- **The history of a schema**: one stage for each version. -/
structure History where
  stages : List Stage
  deriving DecidableEq, Repr

/-- One base type at one version. -/
structure Snapshot where
  type : String
  version : Nat
  fields : Layout
  /-- The transformations of the version that target the type. -/
  transformations : List Step
  /-- Whether the next version changes the type. -/
  differsFromNext : Bool
  deriving DecidableEq, Repr

namespace History

/-- The layouts at the first version. -/
def initialLayouts (definition : Definition) : Layouts :=
  definition.baseTypes.map BaseType.fields

/-- The stages of versions that follow on given layouts. -/
def stagesFrom (catalog : Catalog) (previous : Layouts) :
    List Version → Except SchemaError (List Stage)
  | [] => .ok []
  | version :: versions => do
    let (layouts, changed) ←
      Layouts.replay catalog version.name previous version.transformations
    let later ← stagesFrom catalog layouts versions
    return ⟨layouts, changed, version.transformations⟩ :: later

/-- **The history of a schema** along its chain of versions. -/
def ofChain (definition : Definition) (chain : Chain) : Except SchemaError History := do
  let first := initialLayouts definition
  let later ← stagesFrom definition.catalog first chain.versions.tail
  return ⟨⟨first, ∅, ((chain.get? 0).map Version.transformations).getD []⟩ :: later⟩

/-- The number of versions. -/
def size (history : History) : Nat := history.stages.length

/-- The layout of a base type at a version. -/
def layout? (history : History) (version : Nat) (type : String) : Option Layout :=
  (history.stages[version]?).bind fun stage => stage.layouts.get? type

/-- The types that a version changes. -/
def changedAt? (history : History) (version : Nat) : Option NameSet :=
  (history.stages[version]?).map Stage.changed

/-- Whether the version after a given one has other fields for a type, or targets it. -/
def differsAfter (history : History) (version : Nat) (type : String) (fields : Layout) : Bool :=
  match history.stages[version + 1]? with
  | none => false
  | some next =>
    !((next.layouts.get? type).map fields.agrees).getD false || decide (type ∈ next.changed)

/-- The snapshot of a type with given fields at a version. -/
def snapshotOf (history : History) (version : Nat) (stage : Stage) (type : String)
    (fields : Layout) : Snapshot where
  type := type
  version := version
  fields := fields
  transformations := stage.transformations.filter fun step => step.type == type
  differsFromNext := history.differsAfter version type fields

/-- One base type at one version. -/
def snapshot? (history : History) (version : Nat) (type : String) : Option Snapshot := do
  let stage ← history.stages[version]?
  let fields ← stage.layouts.get? type
  return history.snapshotOf version stage type fields

/-- All base types at one version, in the order of their declaration. -/
def snapshots (history : History) (version : Nat) : List Snapshot :=
  match history.stages[version]? with
  | none => []
  | some stage =>
    stage.layouts.entries.map fun (type, fields) => history.snapshotOf version stage type fields

/-- Whether the next version changes a type. -/
def differsFromNext (history : History) (version : Nat) (type : String) : Bool :=
  ((history.snapshot? version type).map Snapshot.differsFromNext).getD false

/-! ## Interfaces -/

/-- A layout has the given fields of an interface, with the same types. -/
def checkFields (layout : Layout) (type interface : String) :
    List (String × TypeRef) → Except SchemaError Unit
  | [] => .ok ()
  | (field, expected) :: rest =>
    match layout.get? field with
    | none => .error (.interfaceMismatch type interface field .missing)
    | some actual =>
      if actual = expected then checkFields layout type interface rest
      else .error (.interfaceMismatch type interface field (.differs actual expected))

/-- A layout has the fields of all interfaces that a type implements. -/
def checkImplemented (definition : Definition) (layout : Layout) (type : String) :
    List String → Except SchemaError Unit
  | [] => .ok ()
  | name :: names =>
    match definition.interfaces.get? name with
    | none => .error (.unknownType name (.implementsList type))
    | some interface => do
      checkFields layout type name interface.allFields.entries
      checkImplemented definition layout type names

/-- Each of the given base types has the fields of its interfaces at a version. -/
def checkTypes (definition : Definition) (history : History) (version : Nat) :
    List (String × BaseType) → Except SchemaError Unit
  | [] => .ok ()
  | (name, type) :: rest =>
    match history.layout? version name with
    | none => checkTypes definition history version rest
    | some layout => do
      checkImplemented definition layout name type.implemented
      checkTypes definition history version rest

/-- **Every base type has the fields of its interfaces** at a version. -/
def checkInterfaces (history : History) (definition : Definition) (version : Nat) :
    Except SchemaError Unit :=
  checkTypes definition history version definition.baseTypes.entries

end History

end SchemaEvolution

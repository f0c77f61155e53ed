import SchemaEvolution.Graph
import SchemaEvolution.History
import SchemaEvolution.Slots
import SchemaEvolution.Upgrade.Plan
import SchemaEvolution.Workers

/-!
# Deriving upgrade plans

The upgrade of a record goes through the same changes as its layout does, with expressions
over the old instance in the place of types. A value whose type is another node afterwards
is upgraded itself.

## Main definitions

* `CodeRef.registry`: the code that a chain of versions calls
* `Carried`: the value of a field on its way through the changes
* `Derivation.record`, `Derivation.union`: the upgrade of one node
* `UpgradePlan.derive`: the plan of a schema
-/

namespace SchemaEvolution

/-- The converters and initializers of a chain, each once, in the order of their first
use. -/
def CodeRef.registry (chain : Chain) : List CodeRef :=
  (chain.versions.flatMap fun version =>
    version.transformations.filterMap fun step => step.change.code?).foldl addUnlessSeen []

/-- **The value of a field on its way** from the old instance to the new one. -/
structure Carried where
  value : ValueExpr
  type : TypeRef
  /-- The node that the type refers to where the value comes from. -/
  target : NodeId
  deriving DecidableEq, Repr

/-- What an upgrade is derived from. -/
structure Derivation where
  chain : Chain
  history : History
  graph : Graph
  /-- The code that may be called. -/
  references : List CodeRef

namespace Derivation

/-! ## Records -/

/-- The place of a code reference. -/
def reference (source : Derivation) (code : CodeRef) : Except SchemaError RefId :=
  match source.references.idxOf? code with
  | some id => .ok id
  | none => .error (.internal s!"unregistered code reference '{code.spelling}'")

/-- The fields of the old node that a change reads; a change that names none has no
context. -/
def context (old : Node) (version : String) : List String → Except SchemaError CodeContext
  | [] => .ok none
  | names => do
    let fields ← names.mapM fun name =>
      match old.fields.find? fun field => field.name == name with
      | some field => .ok (⟨field.name, field.type⟩ : ContextField)
      | none => .error (.fieldMissing ⟨old.name, version⟩ name)
    return some fields

/-- A change with its code and its types resolved: the code by its place and with the fields
that it reads, the type with its node at the version of the change. -/
abbrev ResolvedChange := FieldChange (TypeRef × NodeId) (RefId × CodeContext)

/-- A type and the code that supplies it, resolved. -/
def resolve (source : Derivation) (old : Node) (version : Nat) (type : TypeRef) (code : CodeRef)
    (names : List String) : Except SchemaError ((TypeRef × NodeId) × (RefId × CodeContext)) := do
  let id ← source.reference code
  let context ← context old (source.chain.nameOf version) names
  let target ← source.graph.index.resolve type.canonical version
  return ((type, target), (id, context))

/-- A change, resolved. -/
def resolveChange (source : Derivation) (old : Node) (version : Nat)
    (change : FieldChange TypeRef CodeRef) : Except SchemaError ResolvedChange :=
  change.traverse (source.resolve old version)

/-- The entry of a change in the log. -/
def operation : ResolvedChange → FieldOperation
  | .move source target _ => .move source target
  | .insert field _ code _ _ => .insert field code.1
  | .remove field => .remove field
  | .convert field _ code _ => .convert field code.1

/-- What an insertion brings in. -/
def start (type : TypeRef × NodeId) (code : RefId × CodeContext) (_ : List String) : Carried :=
  ⟨.create code.1 code.2, type.1, type.2⟩

/-- What a conversion makes of a value. -/
def rework (type : TypeRef × NodeId) (code : RefId × CodeContext) (_ : List String)
    (previous : Carried) : Carried :=
  ⟨.convert code.1 code.2 previous.value, type.1, type.2⟩

/-- The changes of a version on the values of the fields, with their log. -/
def replay (source : Derivation) (old : Node) (version : Nat) :
    List Step → OrderedMap Carried → Except SchemaError (List FieldOperation × OrderedMap Carried)
  | [], carried => .ok ([], carried)
  | step :: steps, carried => do
    let change ← source.resolveChange old version step.change
    let carried ← change.apply start rework ⟨step.type, source.chain.nameOf version⟩ carried
    let (operations, carried) ← replay source old version steps carried
    return (operation change :: operations, carried)

/-- The values of the fields of the old instance. -/
def initial (old : Node) : OrderedMap Carried :=
  .ofList (old.fields.map fun field =>
    (field.name, ⟨.oldField field.name, field.type, field.target⟩))

/-- The node of the named type at a version, and the nodes that lead from it to the one at
another version. -/
def nested (source : Derivation) (type : TypeRef) (first last : Nat) :
    Except SchemaError (Identity × List Identity) := do
  let start ← source.graph.nodeAt type.name first
  let stop ← source.graph.nodeAt type.name last
  match start.version, stop.version with
  | some a, some b => return (start.identity, ← source.graph.upgradeChain type.name a b)
  | _, _ =>
    throw (.internal (s!"field type '{type.canonical}' changed between versions {first} and " ++
      s!"{last} but is not versioned"))

/-- The value of a new field, with its entry in the log if it has one. A value whose type
is still the same node stays as it is. -/
def assign (source : Derivation) (old next : Node) (version : Nat) (field : String)
    (carried : Carried) (declared : NodeField) :
    Except SchemaError (List FieldOperation × Assignment) := do
  if carried.type != declared.type then
    throw (.internal (s!"upgrade of '{old.identity.text}' carries field '{field}' as " ++
      s!"'{carried.type.canonical}' but {next.identity.text} declares " ++
      s!"'{declared.type.canonical}'"))
  if carried.target = declared.target then
    let log := if carried.value = .oldField field then [.carry field] else []
    return (log, ⟨field, declared.type, carried.value⟩)
  else
    let (start, steps) ← source.nested carried.type version (version + 1)
    return ([.upgrade field steps],
      ⟨field, declared.type, .upgrade carried.type.modifier start steps carried.value⟩)

/-- The values of the new fields, with their entries in the log. -/
def assignAll (source : Derivation) (old next : Node) (version : Nat) :
    List (String × Carried) → List NodeField →
      Except SchemaError (List FieldOperation × List Assignment)
  | (field, carried) :: rest, declared :: later => do
    let (log, assignment) ← source.assign old next version field carried declared
    let (logs, assignments) ← assignAll source old next version rest later
    return (log ++ logs, assignment :: assignments)
  | _, _ => .ok ([], [])

/-- **The upgrade of a record**: the changes of the next version on the old fields, then a
value for each field that the next node declares, in the same order. -/
def record (source : Derivation) (old next : Node) : Except SchemaError UpgradeBody := do
  let version := old.version.getD 0
  let steps := ((source.history.snapshot? (version + 1) old.name).map
    Snapshot.transformations).getD []
  let (operations, carried) ← source.replay old (version + 1) steps (initial old)
  let actual := carried.keys
  let expected := next.fields.map NodeField.name
  if expected != actual then
    throw (.upgradeConsistency old.name old.identity.text next.identity.text expected actual)
  let (log, assignments) ← source.assignAll old next version carried.entries next.fields
  return .record (operations ++ log) assignments

/-! ## Unions -/

/-- The upgrade of one member. -/
def arm (source : Derivation) (old next : Node) (member : Member) :
    Except SchemaError UnionArm := do
  match next.members.find? fun later => later.name == member.name with
  | none =>
    throw (.internal s!"member '{member.name}' of '{old.identity.text}' has no successor")
  | some later =>
    let first ← source.graph.node member.target
    let last ← source.graph.node later.target
    let action ←
      if member.target = later.target then pure .passThrough
      else
        match first.version, last.version with
        | some a, some b =>
          pure (.upgrade (← source.graph.upgradeChain member.name a b))
        | _, _ =>
          throw (.internal
            s!"member '{member.name}' of '{old.identity.text}' is not versioned")
    return ⟨member.discriminant, member.name, first.identity, last.identity, action⟩

/-- **The upgrade of a union**, member by member. -/
def union (source : Derivation) (old next : Node) : Except SchemaError UpgradeBody := do
  return .union (← old.members.mapM (source.arm old next))

/-! ## All paths -/

/-- The path from a node to the next one. -/
def path (source : Derivation) (old : Node) : Except SchemaError UpgradePath := do
  match ← source.graph.successor old with
  | none =>
    throw (.internal s!"'{old.identity.text}' has no successor to upgrade to")
  | some next =>
    let body ←
      match old.kind with
      | .base _ => source.record old next
      | .super _ => source.union old next
      | other =>
        throw (.internal s!"cannot derive an upgrade for {other.word} node '{old.name}'")
    return ⟨old.name, old.identity, next.identity, body⟩

/-- Whether a node has an upgrade path: it is a record or a union that is not current. -/
def needsPath (current : Nat) (node : Node) : Bool :=
  match node.kind with
  | .base _ | .super _ => (node.version.map fun version => decide (version < current)).getD false
  | _ => false

/-- The order of paths: by source version, then by type name. -/
def precedes (first second : Node) : Bool :=
  let a := first.version.getD 0
  let b := second.version.getD 0
  a < b || a == b && decide (first.name ≤ second.name)

/-- The job for a path: it is derived and put into its slot. No worker gets over a slot that is not
there. -/
def fillSlot (source : Derivation) (job : Node × Nat) (slots : Slots UpgradePath) :
    Except SchemaError (Slots UpgradePath) := do
  let path ← source.path job.1
  match slots.fill job.2 path with
  | .ok slots => return slots
  | .error .absent => throw .workerLost
  | .error .taken => throw (.internal s!"upgrade of '{path.source.text}' derived twice")

end Derivation

/-- **The plan of a schema**: a path for every record and union node that is not current. The
workers derive the paths, in any order, and put them into their slots. -/
def UpgradePlan.derive (workers : Nat) (chain : Chain) (history : History) (graph : Graph) :
    Except SchemaError UpgradePlan := do
  let references := CodeRef.registry chain
  let source : Derivation := ⟨chain, history, graph, references⟩
  let jobs := (graph.nodes.toList.filter (Derivation.needsPath graph.current)).mergeSort
    Derivation.precedes
  let slots ← Workers.settle (Workers.forEach workers jobs.zipIdx
    (fun job => Workers.step (source.fillSlot job)) (.ofSize jobs.length))
  let paths ← slots.values fun _ => .internal "upgrade path never derived"
  return ⟨references, paths⟩

end SchemaEvolution

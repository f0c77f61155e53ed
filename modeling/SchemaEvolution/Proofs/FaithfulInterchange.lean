import Mathlib.Data.Set.Function
import SchemaEvolution.Interchange
import SchemaEvolution.Proofs.CodeSpelling
import SchemaEvolution.Proofs.IdentityText
import SchemaEvolution.Proofs.JsonMembers

/-!
# The interchange document tells nodes and upgrade paths apart

Nodes and paths are written as JSON values, and whatever they hold is flattened to a text or a
number on the way: type references to their canonical spelling, code references to theirs, the
identities of nodes to a name and a version around an at sign. Each of these texts can be read again
if it was read from the schema, so nothing is lost: values that are written alike are the same.

## Main definitions

* `TypeRef.IsRead`, `CodeRef.IsRead`: references that are read from texts
* `Node.Legible`, `ValueExpr.Legible`, `UpgradePath.Legible`: all references and identities in a
  value are of these kinds

## Main results

* `Node.json_injOn`, `ValueExpr.json_injOn`, `UpgradePath.json_injOn`: legible nodes, computed
  values and upgrade paths are told apart by their JSON values
* `interchange_injOn`: the interchange encoding is faithful
-/

namespace SchemaEvolution

universe u v

/-- Where items are told apart, so are lists of them. -/
theorem map_injOn {α : Type u} {β : Type v} {f : α → β} {s : Set α} (h : Set.InjOn f s) :
    Set.InjOn (List.map f) {xs | ∀ x ∈ xs, x ∈ s} := by
  intro xs hxs ys hys heq
  induction xs generalizing ys with
  | nil => exact (List.map_eq_nil_iff.mp heq.symm).symm
  | cons x xs ih =>
    cases ys with
    | nil => cases heq
    | cons y ys =>
      obtain ⟨hx, hxs⟩ := List.forall_mem_cons.mp hxs
      obtain ⟨hy, hys⟩ := List.forall_mem_cons.mp hys
      obtain ⟨hfirst, hrest⟩ := List.cons.inj heq
      rw [h hx hy hfirst, ih hxs hys hrest]

/-! ## Names and numbers -/

theorem NativeType.name_injective : Function.Injective NativeType.name := by
  intro type type' h
  cases type <;> cases type' <;> first | rfl | exact absurd h (by decide)

theorem Modifier.name_injective : Function.Injective Modifier.name := by
  intro modifier modifier' h
  cases modifier <;> cases modifier' <;> first | rfl | exact absurd h (by decide)

theorem Json.ofNumber?_injective : Function.Injective Json.ofNumber? := by
  intro number number' h
  cases number <;> cases number' <;> simp_all [Json.ofNumber?]

/-- A type reference that is read from a text. -/
def TypeRef.IsRead (ref : TypeRef) : Prop := ∃ raw, TypeRef.parse raw = .ok ref

theorem TypeRef.canonical_injOn_isRead : Set.InjOn canonical {ref | ref.IsRead} := by
  rintro ref ⟨raw, hraw⟩ ref' ⟨raw', hraw'⟩ h
  exact canonical_injOn (isName_of_parse hraw) (isName_of_parse hraw') h

/-- A code reference that is read from a text. -/
def CodeRef.IsRead (ref : CodeRef) : Prop := ∃ raw, CodeRef.parse raw = .ok ref

theorem CodeRef.spelling_injOn : Set.InjOn spelling {ref | ref.IsRead} := by
  rintro ref ⟨raw, hraw⟩ ref' ⟨raw', hraw'⟩ h
  have hread := parse_spelling hraw
  rw [h, parse_spelling hraw'] at hread
  exact (Except.ok.inj hread).symm

/-! ## Identities -/

theorem Identity.jsonSteps_injOn :
    Set.InjOn jsonSteps {steps | ∀ step ∈ steps, step.Legible} := by
  intro steps hsteps steps' hsteps' h
  rw [jsonSteps, jsonSteps, Json.texts, Json.texts, Json.array.injEq, List.map_map,
    List.map_map] at h
  refine map_injOn ?_ hsteps hsteps' h
  intro step hstep step' hstep' htext
  exact text_injOn hstep hstep' (Json.text.inj htext)

/-! ## Nodes -/

/-- The type of a field is read from a text. -/
def NodeField.Legible (field : NodeField) : Prop := field.type.IsRead

/-- The references of a body are read from texts. -/
def NodeKind.Legible : NodeKind → Prop
  | .base fields => ∀ field ∈ fields, field.Legible
  | .custom representation serializer => representation.IsRead ∧ serializer.IsRead
  | .super _ | .native _ | .nullable _ | .array _ => True

/-- The references of a node are read from texts. -/
def Node.Legible (node : Node) : Prop := node.kind.Legible

theorem NodeField.json_injOn : Set.InjOn json {field | field.Legible} := by
  rintro ⟨name, type, target⟩ h ⟨name', type', target'⟩ h' heq
  simp only [json, Json.object.injEq, List.cons.injEq, Prod.mk.injEq, Json.text.injEq,
    Json.number.injEq, true_and, and_true] at heq
  obtain ⟨rfl, rfl, htype⟩ := heq
  obtain rfl := TypeRef.canonical_injOn_isRead h h' htype
  rfl

theorem Member.json_injective : Function.Injective json := by
  rintro ⟨discriminant, name, target⟩ ⟨discriminant', name', target'⟩ heq
  simp only [json, Json.object.injEq, List.cons.injEq, Prod.mk.injEq, Json.text.injEq,
    Json.number.injEq, true_and, and_true] at heq
  obtain ⟨hdiscriminant, rfl, rfl⟩ := heq
  obtain rfl := UInt32.toNat_inj.mp hdiscriminant
  rfl

namespace Node

variable {node node' : Node}

/-- Nodes that are written alike have bodies of one kind. -/
theorem word_eq_of_json_eq (h : node.json = node'.json) : node.kind.word = node'.kind.word := by
  have hkind := congrArg (Json.member "kind") h
  rw [member_kind, member_kind] at hkind
  exact Json.text.inj hkind

/-- Bodies of nodes that are written alike are the same. -/
theorem kind_eq_of_json_eq (hlegible : node.Legible) (hlegible' : node'.Legible)
    (h : node.json = node'.json) : node.kind = node'.kind := by
  have hword := word_eq_of_json_eq h
  have hmember := fun name => congrArg (Json.member name) h
  unfold Legible at hlegible hlegible'
  unfold json at hmember
  -- the words leave the cases of one constructor, whose members hold its parts
  cases hkind : node.kind <;> cases hkind' : node'.kind <;>
    simp [hkind, hkind', NodeKind.word] at hword <;>
    rw [hkind] at hlegible hmember <;> rw [hkind'] at hlegible' hmember
  case base.base fields fields' =>
    have hfields : fields.map NodeField.json = fields'.map NodeField.json := by
      simpa using hmember "fields"
    rw [map_injOn NodeField.json_injOn hlegible hlegible' hfields]
  case super.super members members' =>
    have hmembers : members.map Member.json = members'.map Member.json := by
      simpa using hmember "members"
    rw [List.map_injective_iff.mpr Member.json_injective hmembers]
  case custom.custom representation serializer representation' serializer' =>
    have hrepresentation : representation.spelling = representation'.spelling := by
      simpa using hmember "class"
    have hserializer : serializer.spelling = serializer'.spelling := by
      simpa using hmember "serializer"
    rw [CodeRef.spelling_injOn hlegible.1 hlegible'.1 hrepresentation,
      CodeRef.spelling_injOn hlegible.2 hlegible'.2 hserializer]
  case native.native type type' =>
    have hname : type.name = type'.name := by simpa using hmember "native"
    rw [NativeType.name_injective hname]
  case nullable.nullable wrapped wrapped' => simpa using hmember "of"
  case array.array wrapped wrapped' => simpa using hmember "of"

/-- **Legible nodes are told apart by their JSON values.** -/
theorem json_injOn : Set.InjOn json {node | node.Legible} := by
  intro node hlegible node' hlegible' h
  have hid := congrArg (Json.member "id") h
  have hname := congrArg (Json.member "name") h
  have hversion := congrArg (Json.member "version") h
  rw [member_id, member_id, Json.number.injEq] at hid
  rw [member_name, member_name, Json.text.injEq] at hname
  rw [member_version, member_version] at hversion
  have hkind := kind_eq_of_json_eq hlegible hlegible' h
  obtain ⟨id, name, version, kind⟩ := node
  obtain ⟨id', name', version', kind'⟩ := node'
  obtain rfl := hid
  obtain rfl := hname
  obtain rfl := Json.ofNumber?_injective hversion
  obtain rfl := hkind
  rfl

end Node

/-! ## Computed values -/

/-- The type of a field is read from a text. -/
def ContextField.Legible (field : ContextField) : Prop := field.type.IsRead

/-- The types of the fields in a context are read from texts. -/
def CodeContext.Legible : CodeContext → Prop
  | none => True
  | some fields => ∀ field ∈ fields, field.Legible

/-- The contexts and identities in a computed value are legible. -/
def ValueExpr.Legible : ValueExpr → Prop
  | .oldField _ => True
  | .convert _ context input => CodeContext.Legible context ∧ input.Legible
  | .create _ context => CodeContext.Legible context
  | .upgrade _ source steps input =>
    source.Legible ∧ (∀ step ∈ steps, step.Legible) ∧ input.Legible

theorem ContextField.json_injOn : Set.InjOn json {field | field.Legible} := by
  rintro ⟨field, type⟩ h ⟨field', type'⟩ h' heq
  simp only [json, Json.object.injEq, List.cons.injEq, Prod.mk.injEq, Json.text.injEq, true_and,
    and_true] at heq
  obtain ⟨rfl, htype⟩ := heq
  obtain rfl := TypeRef.canonical_injOn_isRead h h' htype
  rfl

/-- **Legible contexts are told apart by their JSON values**, and none from an empty one. -/
theorem CodeContext.json_injOn : Set.InjOn CodeContext.json {context | Legible context} := by
  intro context hlegible context' hlegible' h
  cases context with
  | none =>
    cases context' with
    | none => rfl
    | some fields' => cases h
  | some fields =>
    cases context' with
    | none => cases h
    | some fields' =>
      rw [map_injOn ContextField.json_injOn hlegible hlegible' (Json.array.inj h)]

/-- **Legible computed values are told apart by their JSON values**, however deep they nest. -/
theorem ValueExpr.json_injOn : Set.InjOn json {value | value.Legible} := by
  intro value hlegible value' hlegible' h
  induction value generalizing value' with
  | oldField field =>
    cases value' with
    | oldField field' =>
      simp only [json, Json.object.injEq, List.cons.injEq, Prod.mk.injEq, Json.text.injEq, true_and,
        and_true] at h
      rw [h]
    | _ => simp [json] at h
  | convert converter context input ih =>
    cases value' with
    | convert converter' context' input' =>
      simp only [json, Json.object.injEq, List.cons.injEq, Prod.mk.injEq, Json.number.injEq,
        true_and, and_true] at h
      obtain ⟨hcontext, hconverter, hinput⟩ := h
      rw [hconverter, CodeContext.json_injOn hlegible.1 hlegible'.1 hcontext,
        ih hlegible.2 hlegible'.2 hinput]
    | _ => simp [json] at h
  | create initializer context =>
    cases value' with
    | create initializer' context' =>
      simp only [json, Json.object.injEq, List.cons.injEq, Prod.mk.injEq, Json.number.injEq,
        true_and, and_true] at h
      obtain ⟨hcontext, hinitializer⟩ := h
      rw [hinitializer, CodeContext.json_injOn hlegible hlegible' hcontext]
    | _ => simp [json] at h
  | upgrade wrapper source steps input ih =>
    cases value' with
    | upgrade wrapper' source' steps' input' =>
      simp only [json, Json.object.injEq, List.cons.injEq, Prod.mk.injEq, Json.text.injEq, true_and,
        and_true] at h
      obtain ⟨hsource, hinput, hsteps, hwrapper⟩ := h
      obtain ⟨hlsource, hlsteps, hlinput⟩ := hlegible
      obtain ⟨hlsource', hlsteps', hlinput'⟩ := hlegible'
      rw [Identity.text_injOn hlsource hlsource' hsource, ih hlinput hlinput' hinput,
        Identity.jsonSteps_injOn hlsteps hlsteps' hsteps, Modifier.name_injective hwrapper]
    | _ => simp [json] at h

/-! ## Upgrade paths -/

/-- The identities in an entry of a log are legible. -/
def FieldOperation.Legible : FieldOperation → Prop
  | .upgrade _ steps => ∀ step ∈ steps, step.Legible
  | .carry _ | .move .. | .remove _ | .insert .. | .convert .. => True

/-- The type of a new field is read from a text, and its value is legible. -/
def Assignment.Legible (assignment : Assignment) : Prop :=
  assignment.type.IsRead ∧ assignment.value.Legible

/-- The identities that a member is led through are legible. -/
def ArmAction.Legible : ArmAction → Prop
  | .passThrough => True
  | .upgrade steps => ∀ step ∈ steps, step.Legible

/-- The identities in the upgrade of a member are legible. -/
def UnionArm.Legible (arm : UnionArm) : Prop :=
  arm.source.Legible ∧ arm.target.Legible ∧ arm.action.Legible

/-- All parts of a body are legible. -/
def UpgradeBody.Legible : UpgradeBody → Prop
  | .record operations assignments =>
    (∀ operation ∈ operations, operation.Legible) ∧ ∀ assignment ∈ assignments, assignment.Legible
  | .union arms => ∀ arm ∈ arms, arm.Legible

/-- All parts of an upgrade path are legible. -/
def UpgradePath.Legible (path : UpgradePath) : Prop :=
  path.source.Legible ∧ path.target.Legible ∧ path.body.Legible

theorem FieldOperation.json_injOn : Set.InjOn json {operation | operation.Legible} := by
  intro operation hlegible operation' hlegible' h
  cases operation <;> cases operation' <;> simp [json] at h
  case upgrade.upgrade =>
    rw [h.1, Identity.jsonSteps_injOn hlegible hlegible' h.2]
  all_goals simp only [h]

theorem Assignment.json_injOn : Set.InjOn json {assignment | assignment.Legible} := by
  rintro ⟨field, type, value⟩ hlegible ⟨field', type', value'⟩ hlegible' h
  simp only [json, Json.object.injEq, List.cons.injEq, Prod.mk.injEq, Json.text.injEq, true_and,
    and_true] at h
  obtain ⟨rfl, htype, hvalue⟩ := h
  obtain rfl := TypeRef.canonical_injOn_isRead hlegible.1 hlegible'.1 htype
  obtain rfl := ValueExpr.json_injOn hlegible.2 hlegible'.2 hvalue
  rfl

theorem ArmAction.json_injOn : Set.InjOn json {action | action.Legible} := by
  intro action hlegible action' hlegible' h
  cases action <;> cases action' <;> simp [json] at h
  case passThrough.passThrough => rfl
  case upgrade.upgrade => rw [Identity.jsonSteps_injOn hlegible hlegible' h]

theorem UnionArm.json_injOn : Set.InjOn json {arm | arm.Legible} := by
  rintro ⟨discriminant, member, source, target, action⟩ ⟨hsource, htarget, haction⟩
    ⟨discriminant', member', source', target', action'⟩ ⟨hsource', htarget', haction'⟩ h
  simp only [json, Json.object.injEq, List.cons.injEq, Prod.mk.injEq, Json.text.injEq,
    Json.number.injEq, true_and, and_true] at h
  obtain ⟨hactions, hdiscriminant, hsources, rfl, htargets⟩ := h
  obtain rfl := ArmAction.json_injOn haction haction' hactions
  obtain rfl := UInt32.toNat_inj.mp hdiscriminant
  obtain rfl := Identity.text_injOn hsource hsource' hsources
  obtain rfl := Identity.text_injOn htarget htarget' htargets
  rfl

/-- **Legible upgrade paths are told apart by their JSON values.** -/
theorem UpgradePath.json_injOn : Set.InjOn json {path | path.Legible} := by
  rintro ⟨type, source, target, body⟩ ⟨hsource, htarget, hbody⟩
    ⟨type', source', target', body'⟩ ⟨hsource', htarget', hbody'⟩ h
  cases body with
  | record operations assignments =>
    cases body' with
    | record operations' assignments' =>
      simp only [json, Json.object.injEq, List.cons.injEq, Prod.mk.injEq, Json.text.injEq,
        Json.array.injEq, true_and, and_true] at h
      obtain ⟨hassignments, hsources, hoperations, htargets, rfl⟩ := h
      obtain rfl := map_injOn Assignment.json_injOn hbody.2 hbody'.2 hassignments
      obtain rfl := map_injOn FieldOperation.json_injOn hbody.1 hbody'.1 hoperations
      obtain rfl := Identity.text_injOn hsource hsource' hsources
      obtain rfl := Identity.text_injOn htarget htarget' htargets
      rfl
    | union arms' => simp [json] at h
  | union arms =>
    cases body' with
    | record operations' assignments' => simp [json] at h
    | union arms' =>
      simp only [json, Json.object.injEq, List.cons.injEq, Prod.mk.injEq, Json.text.injEq,
        Json.array.injEq, true_and, and_true] at h
      obtain ⟨harms, hsources, htargets, rfl⟩ := h
      obtain rfl := map_injOn UnionArm.json_injOn hbody hbody' harms
      obtain rfl := Identity.text_injOn hsource hsource' hsources
      obtain rfl := Identity.text_injOn htarget htarget' htargets
      rfl

/-- **The interchange encoding is faithful.** If the type references and code references in them
are read from texts, and each identity has a version or a name without an at sign, then nodes,
upgrade paths, entries of logs, computed values of any depth, and contexts that have one JSON value
are the same. No context is written differently from an empty one; type references with different
modifiers and identities with different labels have different texts; and whatever they hold, a
record is never written like a union, neither as a node nor as the body of a path. -/
theorem interchange_injOn :
    Set.InjOn Node.json {node | node.Legible} ∧
    Set.InjOn UpgradePath.json {path | path.Legible} ∧
    Set.InjOn FieldOperation.json {operation | operation.Legible} ∧
    Set.InjOn ValueExpr.json {value | value.Legible} ∧
    Set.InjOn CodeContext.json {context | CodeContext.Legible context} ∧
    CodeContext.json none ≠ CodeContext.json (some []) ∧
    (∀ ref ref' : TypeRef, ref.IsRead → ref'.IsRead → ref.modifier ≠ ref'.modifier →
      ref.canonical ≠ ref'.canonical) ∧
    (∀ identity identity' : Identity, identity.Legible → identity'.Legible →
      identity.version ≠ identity'.version → identity.text ≠ identity'.text) ∧
    (∀ (node node' : Node) (fields : List NodeField) (members : List Member),
      node.kind = .base fields → node'.kind = .super members → node.json ≠ node'.json) ∧
    ∀ (path path' : UpgradePath) (operations : List FieldOperation)
      (assignments : List Assignment) (arms : List UnionArm),
      path.body = .record operations assignments → path'.body = .union arms →
        path.json ≠ path'.json := by
  refine ⟨Node.json_injOn, UpgradePath.json_injOn, FieldOperation.json_injOn, ValueExpr.json_injOn,
    CodeContext.json_injOn, nofun, ?modifiers, ?labels, ?nodes, ?paths⟩
  case modifiers =>
    intro ref ref' h h' hmodifier heq
    exact hmodifier (congrArg TypeRef.modifier (TypeRef.canonical_injOn_isRead h h' heq))
  case labels =>
    intro identity identity' h h' hversion heq
    exact hversion (congrArg Identity.version (Identity.text_injOn h h' heq))
  case nodes =>
    intro node node' fields members hkind hkind' heq
    have hword := Node.word_eq_of_json_eq heq
    rw [hkind, hkind'] at hword
    exact absurd hword (by simp [NodeKind.word])
  case paths =>
    intro path path' operations assignments arms hbody hbody' heq
    rw [UpgradePath.json, UpgradePath.json, hbody, hbody'] at heq
    simp at heq

/-- The upgrade of a record whose array of records is upgraded and then converted. -/
def UpgradePath.converted (context : CodeContext) : UpgradePath where
  type := "Shape"
  source := ⟨"Shape", some 0⟩
  target := ⟨"Shape", some 2⟩
  body := .record [.convert "corners" 0] [⟨"corners", ⟨"Corner", .array⟩,
    .convert 0 context (.upgrade .array ⟨"Corner", some 0⟩ [⟨"Corner", some 2⟩]
      (.oldField "corners"))⟩]

/-- A custom type with a codec. -/
def Node.withCodec (serializer : CodeRef) : Node where
  id := 0
  name := "Id"
  version := none
  kind := .custom (.construct "a.Id") serializer

/-- Paths differ where only the context of a converter does, and nodes where only a codec does. -/
theorem interchange_injOn_converted :
    ((UpgradePath.converted none).Legible ∧ (UpgradePath.converted (some [])).Legible ∧
      (UpgradePath.converted none).json ≠ (UpgradePath.converted (some [])).json) ∧
    (Node.withCodec (.staticField "a.Codec" "ID")).Legible ∧
    (Node.withCodec (.construct "a.Codec")).Legible ∧
    (Node.withCodec (.staticField "a.Codec" "ID")).json ≠
      (Node.withCodec (.construct "a.Codec")).json := by
  obtain ⟨hnodes, hpaths, -⟩ := interchange_injOn
  have hidentity : ∀ (name : String) (version : Nat), Identity.Legible ⟨name, some version⟩ := nofun
  have hcorners : TypeRef.IsRead ⟨"Corner", .array⟩ := ⟨"Corner[]", by decide +kernel⟩
  have hpath : ∀ context, CodeContext.Legible context →
      (UpgradePath.converted context).Legible := by
    intro context hcontext
    refine ⟨hidentity _ _, hidentity _ _, by simp [FieldOperation.Legible], ?_⟩
    simp only [List.forall_mem_singleton]
    exact ⟨hcorners, hcontext, hidentity _ _, by simpa using hidentity _ _, trivial⟩
  have hnone := hpath none trivial
  have hempty := hpath (some []) (List.forall_mem_nil _)
  have hconstruct : CodeRef.IsRead (.construct "a.Id") := ⟨"a.Id", by decide +kernel⟩
  have hfield : (Node.withCodec (.staticField "a.Codec" "ID")).Legible :=
    ⟨hconstruct, "a.Codec#ID", by decide +kernel⟩
  have htype : (Node.withCodec (.construct "a.Codec")).Legible :=
    ⟨hconstruct, "a.Codec", by decide +kernel⟩
  exact ⟨⟨hnone, hempty, fun h => absurd (hpaths hnone hempty h) (by decide)⟩, hfield, htype,
    fun h => absurd (hnodes hfield htype h) (by decide)⟩

end SchemaEvolution

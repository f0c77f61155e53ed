import SchemaEvolution.Proofs.NestedUpgrades

/-!
# Schemas that agree up to labels

Two schemas may go through the same layouts at different places of their chains. Their types then
refer to the same types and change over the same steps, but how long a type stays the same differs,
and with it the labels.

## Main definitions

* `Relabeling`, `UpgradePath.relabel`: new labels, and a path with its labels exchanged
* `Replayed.Embeds`: a schema mentions all types of another one
* `Replayed.Mirrors`, `Replayed.MirrorsStep`: a version and the step behind it are the same up to
  labels

## Main results

* `Replayed.Embeds.affected_iff`: the same names are affected
* `Replayed.Mirrors.identity_eq`: nodes at mirrored versions have one identity, up to labels
-/

namespace SchemaEvolution

/-! ## New labels -/

/-- **New labels**: for each name, what becomes of its labels. -/
abbrev Relabeling := String → Nat → Nat

/-- The identity with a new label; leaves have none. -/
def Identity.relabel (rename : Relabeling) (identity : Identity) : Identity :=
  ⟨identity.name, identity.version.map (rename identity.name)⟩

/-- The expression with new labels. -/
def ValueExpr.relabel (rename : Relabeling) : ValueExpr → ValueExpr
  | .oldField field => .oldField field
  | .convert converter context input => .convert converter context (input.relabel rename)
  | .create initializer context => .create initializer context
  | .upgrade wrapper source steps input =>
    .upgrade wrapper (source.relabel rename) (steps.map (Identity.relabel rename))
      (input.relabel rename)

/-- The entry of the log with new labels. -/
def FieldOperation.relabel (rename : Relabeling) : FieldOperation → FieldOperation
  | .upgrade field steps => .upgrade field (steps.map (Identity.relabel rename))
  | operation => operation

/-- The assignment with new labels in its value. -/
def Assignment.relabel (rename : Relabeling) (assignment : Assignment) : Assignment :=
  { assignment with value := assignment.value.relabel rename }

/-- The action with new labels. -/
def ArmAction.relabel (rename : Relabeling) : ArmAction → ArmAction
  | .passThrough => .passThrough
  | .upgrade steps => .upgrade (steps.map (Identity.relabel rename))

/-- The arm with new labels. -/
def UnionArm.relabel (rename : Relabeling) (arm : UnionArm) : UnionArm :=
  { arm with
    source := arm.source.relabel rename
    target := arm.target.relabel rename
    action := arm.action.relabel rename }

/-- The body of a path with new labels. -/
def UpgradeBody.relabel (rename : Relabeling) : UpgradeBody → UpgradeBody
  | .record operations assignments =>
    .record (operations.map (FieldOperation.relabel rename))
      (assignments.map (Assignment.relabel rename))
  | .union arms => .union (arms.map (UnionArm.relabel rename))

/-- **The path with new labels** in all its identities. -/
def UpgradePath.relabel (rename : Relabeling) (path : UpgradePath) : UpgradePath where
  type := path.type
  source := path.source.relabel rename
  target := path.target.relabel rename
  body := path.body.relabel rename

theorem ValueExpr.relabel_eq_oldField_iff {rename : Relabeling} {value : ValueExpr}
    {field : String} : value.relabel rename = .oldField field ↔ value = .oldField field := by
  cases value <;> simp [relabel]

/-- The entries that changes leave in the log have no labels. -/
theorem Derivation.relabel_operation (rename : Relabeling) (change : ResolvedChange) :
    (operation change).relabel rename = operation change := by
  cases change <;> rfl

/-! ## A schema inside another one -/

/-- What is reached inside a closed set of names is reached by all references that agree on it. -/
theorem reaches_of_agree {refs refs' : String → List String} {inside : String → Prop}
    (hclosed : ∀ name, inside name → ∀ other ∈ refs name, inside other)
    (hagree : ∀ name, inside name → refs' name = refs name) {name target : String}
    (hname : inside name)
    (hreach : Relation.ReflTransGen (fun name other => other ∈ refs name) name target) :
    Relation.ReflTransGen (fun name other => other ∈ refs' name) name target := by
  suffices inside target ∧
      Relation.ReflTransGen (fun name other => other ∈ refs' name) name target from this.2
  induction hreach with
  | refl => exact ⟨hname, .refl⟩
  | tail _ hrefers ih =>
    obtain ⟨hinside, hreach⟩ := ih
    refine ⟨hclosed _ hinside _ hrefers, hreach.tail ?_⟩
    rw [hagree _ hinside]
    exact hrefers

/-- **A schema embeds into another one** that declares the same types and mentions all of its type
references. -/
structure Replayed.Embeds (replayed replayed' : Replayed) : Prop where
  catalog : replayed'.definition.catalog = replayed.definition.catalog
  superTypes : replayed'.definition.superTypes = replayed.definition.superTypes
  typeRefs : ∀ {ref}, ref ∈ replayed.typeRefs → ref ∈ replayed'.typeRefs

namespace Replayed.Embeds

open Blueprint

variable {replayed replayed' : Replayed} {v v' : Nat} {name : String}
  (he : replayed.Embeds replayed')

include he

theorem isUpgradable_iff : replayed'.IsUpgradable name ↔ replayed.IsUpgradable name := by
  rw [IsUpgradable, IsUpgradable, he.catalog]

variable (hr : replayed.Sound) (hr' : replayed'.Sound)

include hr hr'

/-- A name stands for the same in both schemas. -/
theorem get?_entries {entry : Entry} (h : replayed.blueprint.entries.get? name = some entry) :
    replayed'.blueprint.entries.get? name = some entry := by
  cases entry with
  | declared category => rw [entry_declared_iff, he.catalog, ← entry_declared_iff, h]
  | wrapper ref =>
    obtain ⟨href, hwrapped, hname⟩ := hr.entry_wrapper_iff.mp h
    exact hr'.entry_wrapper_iff.mpr ⟨he.typeRefs href, hwrapped, hname⟩

theorem mem_names (h : name ∈ replayed.blueprint.names) : name ∈ replayed'.blueprint.names := by
  obtain ⟨entry, hentry⟩ := Option.isSome_iff_exists.mp (mem_names_iff.mp h)
  rw [mem_names_iff, he.get?_entries hr hr' hentry]
  rfl

theorem evolves_eq (h : name ∈ replayed.blueprint.names) :
    replayed'.blueprint.evolves name = replayed.blueprint.evolves name := by
  obtain ⟨entry, hentry⟩ := Option.isSome_iff_exists.mp (mem_names_iff.mp h)
  have hcatalog : replayed'.blueprint.definition.catalog = replayed.blueprint.definition.catalog :=
    he.catalog
  rw [evolves, evolves, hentry, he.get?_entries hr hr' hentry, hcatalog]

/-- Where the layouts are the same, the references are. -/
theorem referencesAt_eq (h : name ∈ replayed.blueprint.names)
    (hlayout : replayed'.history.layout? v' name = replayed.history.layout? v name) :
    replayed'.blueprint.referencesAt v' name = replayed.blueprint.referencesAt v name := by
  obtain ⟨entry, hentry⟩ := Option.isSome_iff_exists.mp (mem_names_iff.mp h)
  rw [referencesAt_of_entry hentry, referencesAt_of_entry (he.get?_entries hr hr' hentry)]
  cases entry with
  | wrapper ref => rfl
  | declared category =>
    cases category with
    | base => simp only [references, blueprint, ofDefinition, hlayout]
    | super => simp only [references, blueprint, ofDefinition, he.superTypes]
    | custom => rfl
    | native type => rfl

/-- **The same names are affected** behind versions whose next versions have the same layouts and
transform the same types. -/
theorem affected_iff (hname : name ∈ replayed.blueprint.names)
    (hlayout : ∀ other,
      replayed'.history.layout? (v' + 1) other = replayed.history.layout? (v + 1) other)
    (htargets : ∀ type, replayed'.Targets (v' + 1) type ↔ replayed.Targets (v + 1) type) :
    replayed'.Affected v' name ↔ replayed.Affected v name := by
  have hagree : ∀ other ∈ replayed.blueprint.names,
      replayed'.blueprint.referencesAt (v' + 1) other =
        replayed.blueprint.referencesAt (v + 1) other :=
    fun other hother => he.referencesAt_eq hr hr' hother (hlayout other)
  have hclosed : ∀ name ∈ replayed.blueprint.names,
      ∀ other ∈ replayed.blueprint.referencesAt (v + 1) name, other ∈ replayed.blueprint.names :=
    fun _ _ _ hother => hr.mem_names_of_mem_referencesAt hother
  constructor
  · rintro ⟨target, htarget, hreach⟩
    refine ⟨target, (htargets target).mp htarget, reaches_of_agree ?_ ?_ hname hreach⟩
    · intro name hname other hother
      rw [hagree name hname] at hother
      exact hclosed name hname other hother
    · exact fun other hother => (hagree other hother).symm
  · rintro ⟨target, htarget, hreach⟩
    exact ⟨target, (htargets target).mpr htarget, reaches_of_agree hclosed hagree hname hreach⟩

end Replayed.Embeds

/-- Only names of the graph are affected. -/
theorem Replayed.Sound.mem_names_of_affected {replayed : Replayed} (hr : replayed.Sound) {v : Nat}
    {name : String} (h : replayed.Affected v name) : name ∈ replayed.blueprint.names := by
  obtain ⟨target, ⟨stage, hstage, step, hstep, rfl⟩, hreach⟩ := h
  rcases hreach.cases_head with rfl | ⟨other, hother, -⟩
  · exact mem_names_of_category (hr.checked_transformation hstage hstep).1
  · rw [Blueprint.mem_names_iff]
    cases hentry : replayed.blueprint.entries.get? name with
    | some entry => rfl
    | none =>
      rw [Blueprint.referencesAt, Blueprint.row, SortedMap.get?_map, hentry] at hother
      cases hother

/-! ## Mirrored versions -/

namespace Replayed

/-- **A version mirrors one of another schema**: the layouts there are the same, and the labels of
the names are the new ones. -/
structure Mirrors (replayed replayed' : Replayed) (rename : Relabeling) (v v' : Nat) : Prop where
  lt_size : v < replayed.chain.size
  lt_size' : v' < replayed'.chain.size
  layout : ∀ name, replayed'.history.layout? v' name = replayed.history.layout? v name
  label : ∀ {name label}, name ∈ replayed.blueprint.names → replayed.LabelAt v name label →
    replayed'.LabelAt v' name (rename name label)

/-- **The step behind a version mirrors one of another schema**: both sides do, and the
transformations are the same, with their code registered at the same places. -/
structure MirrorsStep (replayed replayed' : Replayed) (rename : Relabeling) (v v' : Nat) :
    Prop where
  before : replayed.Mirrors replayed' rename v v'
  after : replayed.Mirrors replayed' rename (v + 1) (v' + 1)
  version : ∃ version version', replayed.chain.get? (v + 1) = some version ∧
    replayed'.chain.get? (v' + 1) = some version' ∧ version'.name = version.name ∧
      version'.transformations = version.transformations
  code : ∀ {code id}, (CodeRef.registry replayed.chain).idxOf? code = some id →
    (CodeRef.registry replayed'.chain).idxOf? code = some id

/-- A version transforms the types that its transformations target. -/
theorem Sound.targets_iff {replayed : Replayed} (hr : replayed.Sound) {v : Nat}
    {version : Version} (hversion : replayed.chain.get? v = some version) {type : String} :
    replayed.Targets v type ↔ ∃ step ∈ version.transformations, step.type = type := by
  obtain ⟨stage, hstage⟩ := hr.exists_stage (List.getElem?_eq_some_iff.mp hversion).1
  rw [← hr.transformations_stage hstage hversion]
  constructor
  · rintro ⟨stage', hstage', hstep⟩
    obtain rfl := Option.some.inj (hstage.symm.trans hstage')
    exact hstep
  · intro hstep
    exact ⟨stage, hstage, hstep⟩

end Replayed

section Mirrored

variable {replayed replayed' : Replayed} {graph graph' : Graph} {rename : Relabeling} {v v' : Nat}
  {name : String} (hr : replayed.Sound) (hr' : replayed'.Sound)
  (hg : Built replayed 0 graph.sketch) (hg' : Built replayed' 0 graph'.sketch)
  (he : replayed.Embeds replayed')

include hr hr' he

/-- **The same names change** over mirrored steps. -/
theorem Replayed.MirrorsStep.affected_iff (hs : replayed.MirrorsStep replayed' rename v v')
    (hname : name ∈ replayed.blueprint.names) :
    replayed'.Affected v' name ↔ replayed.Affected v name := by
  obtain ⟨version, version', hversion, hversion', -, hsteps⟩ := hs.version
  refine he.affected_iff hr hr' hname hs.after.layout fun type => ?_
  rw [hr.targets_iff hversion, hr'.targets_iff hversion', hsteps]

include hg hg'

/-- **Nodes at mirrored versions have one identity**, up to labels. -/
theorem Replayed.Mirrors.identity_eq (hm : replayed.Mirrors replayed' rename v v')
    {node node' : Node} (hnode : graph.nodeAt name v = .ok node)
    (hnode' : graph'.nodeAt name v' = .ok node') :
    node'.identity = node.identity.relabel rename := by
  obtain ⟨id, hid, -⟩ := Graph.nodeAt_eq_ok_iff.mp hnode
  have hname := (hg.mem_of_node? hid).2
  obtain ⟨label, hlabel⟩ := Replayed.exists_labelAt hm.lt_size name
  have hversion := hg.version_eq_of_labelAt hnode hlabel
  have hversion' := hg'.version_eq_of_labelAt hnode' (hm.label hname hlabel)
  obtain ⟨-, -, hrep⟩ := hg.represents_of_nodeAt hnode
  obtain ⟨-, -, hrep'⟩ := hg'.represents_of_nodeAt hnode'
  rw [he.evolves_eq hr hr' hname] at hversion'
  rw [Node.identity, Node.identity, Identity.relabel, hrep.named, hrep'.named, hversion, hversion']
  split <;> rfl

end Mirrored

end SchemaEvolution

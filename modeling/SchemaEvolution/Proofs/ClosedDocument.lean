import SchemaEvolution.Interchange
import SchemaEvolution.Proofs.ChainOrder
import SchemaEvolution.Proofs.IdentityText
import SchemaEvolution.Proofs.JsonMembers
import SchemaEvolution.Proofs.PathReferences
import SchemaEvolution.Proofs.Totality

/-!
# The interchange document is closed

Whatever an interchange document refers to is in the document itself. Ids lead to nodes, numbers of
code into the list of references, and the text of an identity to exactly one node; the versions are
numbered in order and linked by their names.

## Main definitions

* `Json.identityText?`: the text of a node's identity
* `Json.Mentions`: an upgrade mentions an identity
* `Json.IsClosed`: a document is closed

## Main results

* `UpgradePath.exists_of_occurs_code`, `UpgradePath.exists_of_mentions`: the code and the
  identities in the JSON of a path are those of the path
* `Compilation.json_isClosed`: the document of a compiled schema is closed
-/

namespace SchemaEvolution

/-! ## Closed documents -/

namespace Json

/-- The text of the identity of a node in a document, by its name and its version. -/
def identityText? (node : Json) : Option String :=
  match node.member "name", node.member "version" with
  | .text name, .number version => some (Identity.text ⟨name, some version⟩)
  | .text name, .null => some (Identity.text ⟨name, none⟩)
  | _, _ => none

/-- **An upgrade mentions an identity**: as one of its two ends, as the start of an upgrade in a
value, as an end of an arm, or as a step of any upgrade in it. -/
inductive Mentions (upgrade : Json) : Json → Prop
  | source : Mentions upgrade (upgrade.member "from")
  | target : Mentions upgrade (upgrade.member "to")
  | value {value : Json} (h : (upgrade.member "assignments").Occurs "from" value) :
      Mentions upgrade value
  | armSource {value : Json} (h : (upgrade.member "arms").Occurs "from" value) :
      Mentions upgrade value
  | armTarget {value : Json} (h : (upgrade.member "arms").Occurs "to" value) :
      Mentions upgrade value
  | step {steps value : Json} (h : upgrade.Occurs "steps" steps) (hvalue : value ∈ steps.items) :
      Mentions upgrade value

/-- **A document is closed**: what it refers to is in it. -/
structure IsClosed (document : Json) : Prop where
  /-- Nodes are numbered by their places. -/
  ids : ∀ {place : Nat} {node : Json}, (document.member "nodes").items[place]? = some node →
    node.member "id" = .number place
  /-- The targets of fields and members and the insides of wrappers are nodes. -/
  targets : ∀ node ∈ (document.member "nodes").items, ∀ name ∈ ["target", "of"], ∀ value,
    node.Occurs name value →
      ∃ target ∈ (document.member "nodes").items, target.member "id" = value
  /-- The entries of tables are nodes with the name of the entry. -/
  entries : ∀ table ∈ (document.member "tables").items,
    ∀ entry ∈ (table.member "types").members, ∃ node ∈ (document.member "nodes").items,
      node.member "id" = entry.2 ∧ node.member "name" = .text entry.1
  /-- All tables have the same names. -/
  names : ∃ names, ∀ table ∈ (document.member "tables").items,
    (table.member "types").members.map Prod.fst = names
  /-- The code in upgrades is among the references. -/
  codes : ∀ upgrade ∈ (document.member "upgrades").items,
    ∀ name ∈ ["converter", "initializer"], ∀ value, upgrade.Occurs name value →
      ∃ place < (document.member "references").items.length, value = .number place
  /-- The identities in upgrades are each that of one node. -/
  identities : ∀ upgrade ∈ (document.member "upgrades").items, ∀ value, upgrade.Mentions value →
    ∃ text, value = .text text ∧
      ((document.member "nodes").items.map identityText?).count (some text) = 1
  /-- Versions are numbered by their places, and the last one is current. -/
  versions : ∀ {place : Nat} {version : Json},
    (document.member "versions").items[place]? = some version →
      version.member "index" = .number place ∧
        version.member "current" =
          .boolean (place + 1 == (document.member "versions").items.length)
  /-- The first version continues none. -/
  first : ∀ {version : Json}, (document.member "versions").items[0]? = some version →
    version.member "previous" = .null
  /-- Every other version continues the one before. -/
  previous : ∀ {place : Nat} {before version : Json},
    (document.member "versions").items[place]? = some before →
      (document.member "versions").items[place + 1]? = some version →
        ∃ name, before.member "name" = .text name ∧ version.member "previous" = .text name
  /-- The last version is the current one. -/
  current : ∃ version : Json, ∃ name, (document.member "versions").items.getLast? = some version ∧
    version.member "name" = .text name ∧ document.member "current_version" = .text name

end Json

/-! ## The JSON of paths -/

/-- A context only has the names and the types of fields in it. -/
theorem CodeContext.not_occurs {name : String} {value : Json} (hname : name ∉ ["field", "type"])
    (context : CodeContext) : ¬context.json.Occurs name value := by
  obtain ⟨hfield, htype⟩ : name ≠ "field" ∧ name ≠ "type" := by simpa using hname
  cases context with
  | none => simp [CodeContext.json]
  | some fields => simp [CodeContext.json, ContextField.json, hfield.symm, htype.symm]

section Code

variable {name : String} {value : Json} (hname : name ∈ ["converter", "initializer"])

include hname

/-- The code in the JSON of an expression is that of the expression. -/
theorem ValueExpr.exists_of_occurs_code {expr : ValueExpr} (h : expr.json.Occurs name value) :
    ∃ id ∈ expr.codes, value = .number id := by
  have hcontext : ∀ context : CodeContext, ¬context.json.Occurs name value :=
    CodeContext.not_occurs (by rcases List.mem_pair.mp hname with rfl | rfl <;> decide)
  induction expr with
  | oldField field =>
    rcases List.mem_pair.mp hname with rfl | rfl <;> simp [ValueExpr.json] at h
  | convert converter context input ih =>
    have hcases : value = .number converter ∨ input.json.Occurs name value := by
      rcases List.mem_pair.mp hname with rfl | rfl
      · simpa [ValueExpr.json, hcontext, eq_comm] using h
      · exact .inr (by simpa [ValueExpr.json, hcontext] using h)
    rcases hcases with rfl | hinput
    · exact ⟨converter, List.mem_cons_self, rfl⟩
    · obtain ⟨id, hid, hvalue⟩ := ih hinput
      exact ⟨id, List.mem_cons_of_mem _ hid, hvalue⟩
  | create initializer context =>
    have hvalue : value = .number initializer := by
      rcases List.mem_pair.mp hname with rfl | rfl
      · simp [ValueExpr.json, hcontext] at h
      · simpa [ValueExpr.json, hcontext, eq_comm] using h
    exact ⟨initializer, List.mem_singleton_self initializer, hvalue⟩
  | upgrade wrapper first steps input ih =>
    refine ih ?_
    rcases List.mem_pair.mp hname with rfl | rfl <;>
      simpa [ValueExpr.json, Identity.jsonSteps] using h

theorem FieldOperation.exists_of_occurs_code {entry : FieldOperation}
    (h : entry.json.Occurs name value) : ∃ id ∈ entry.codes, value = .number id := by
  rcases List.mem_pair.mp hname with rfl | rfl <;> cases entry <;>
    simp_all [FieldOperation.json, FieldOperation.codes, Identity.jsonSteps]

/-- **The code in the JSON of a path is that of the path.** -/
theorem UpgradePath.exists_of_occurs_code {path : UpgradePath} (h : path.json.Occurs name value) :
    ∃ id ∈ path.body.codes, value = .number id := by
  cases hbody : path.body with
  | record operations assignments =>
    have hcases : (∃ assignment ∈ assignments, assignment.json.Occurs name value) ∨
        ∃ entry ∈ operations, entry.json.Occurs name value := by
      rcases List.mem_pair.mp hname with rfl | rfl <;> simpa [UpgradePath.json, hbody] using h
    rcases hcases with ⟨assignment, hassignment, hvalue⟩ | ⟨entry, hentry, hvalue⟩
    · have hexpr : assignment.value.json.Occurs name value := by
        rcases List.mem_pair.mp hname with rfl | rfl <;> simpa [Assignment.json] using hvalue
      obtain ⟨id, hid, hvalue⟩ := ValueExpr.exists_of_occurs_code hname hexpr
      exact ⟨id, List.mem_append_right _ (List.mem_flatMap.mpr ⟨assignment, hassignment, hid⟩),
        hvalue⟩
    · obtain ⟨id, hid, hvalue⟩ := FieldOperation.exists_of_occurs_code hname hvalue
      exact ⟨id, List.mem_append_left _ (List.mem_flatMap.mpr ⟨entry, hentry, hid⟩), hvalue⟩
  | union arms =>
    have hcases : ∃ arm ∈ arms, arm.json.Occurs name value := by
      rcases List.mem_pair.mp hname with rfl | rfl <;> simpa [UpgradePath.json, hbody] using h
    obtain ⟨arm, -, hvalue⟩ := hcases
    rcases List.mem_pair.mp hname with rfl | rfl <;> cases haction : arm.action <;>
      simp [UnionArm.json, ArmAction.json, Identity.jsonSteps, haction] at hvalue

end Code

section Mentions

variable {value : Json}

/-- The starts of upgrades in the JSON of an expression are those in the expression. -/
theorem ValueExpr.exists_of_occurs_from {expr : ValueExpr} (h : expr.json.Occurs "from" value) :
    ∃ call ∈ expr.nested, value = .text call.1.text := by
  have hcontext : ∀ context : CodeContext, ¬context.json.Occurs "from" value :=
    CodeContext.not_occurs (by decide)
  induction expr with
  | oldField field => simp [ValueExpr.json] at h
  | convert converter context input ih => exact ih (by simpa [ValueExpr.json, hcontext] using h)
  | create initializer context => simp [ValueExpr.json, hcontext] at h
  | upgrade wrapper first steps input ih =>
    have hcases : value = .text first.text ∨ input.json.Occurs "from" value := by
      simpa [ValueExpr.json, Identity.jsonSteps, eq_comm] using h
    rcases hcases with rfl | hinput
    · exact ⟨_, List.mem_cons_self, rfl⟩
    · obtain ⟨call, hcall, hvalue⟩ := ih hinput
      exact ⟨call, List.mem_cons_of_mem _ hcall, hvalue⟩

/-- The steps in the JSON of an expression are those in the expression. -/
theorem ValueExpr.exists_of_occurs_steps {expr : ValueExpr} (h : expr.json.Occurs "steps" value) :
    ∃ call ∈ expr.nested, value = Identity.jsonSteps call.2 := by
  have hcontext : ∀ context : CodeContext, ¬context.json.Occurs "steps" value :=
    CodeContext.not_occurs (by decide)
  induction expr with
  | oldField field => simp [ValueExpr.json] at h
  | convert converter context input ih => exact ih (by simpa [ValueExpr.json, hcontext] using h)
  | create initializer context => simp [ValueExpr.json, hcontext] at h
  | upgrade wrapper first steps input ih =>
    have hcases : input.json.Occurs "steps" value ∨ value = Identity.jsonSteps steps := by
      simpa [ValueExpr.json, Identity.jsonSteps, eq_comm] using h
    rcases hcases with hinput | rfl
    · obtain ⟨call, hcall, hvalue⟩ := ih hinput
      exact ⟨call, List.mem_cons_of_mem _ hcall, hvalue⟩
    · exact ⟨_, List.mem_cons_self, rfl⟩

/-- A step of an upgrade is mentioned with it. -/
theorem exists_of_mem_jsonSteps {calls : List (Identity × List Identity)}
    {call : Identity × List Identity} (hcall : call ∈ calls)
    (h : value ∈ (Identity.jsonSteps call.2).items) :
    ∃ identity ∈ callIdentities calls, value = .text identity.text := by
  obtain ⟨text, htext, rfl⟩ := Json.mem_items_texts h
  obtain ⟨identity, hidentity, rfl⟩ := List.mem_map.mp htext
  exact ⟨identity, List.mem_flatMap.mpr ⟨call, hcall, List.mem_cons_of_mem _ hidentity⟩, rfl⟩

/-- The ends in the JSON of an arm are those of the arm. -/
theorem UnionArm.exists_of_occurs_end {arm : UnionArm} {name : String}
    (hname : name ∈ ["from", "to"]) (h : arm.json.Occurs name value) :
    ∃ identity ∈ arm.identities, value = .text identity.text := by
  have haction : ¬arm.action.json.Occurs name value := by
    rcases List.mem_pair.mp hname with rfl | rfl <;> cases arm.action <;>
      simp [ArmAction.json, Identity.jsonSteps]
  rcases List.mem_pair.mp hname with rfl | rfl
  · have hvalue : value = .text arm.source.text := by
      simpa [UnionArm.json, haction, eq_comm] using h
    exact ⟨arm.source, List.mem_cons_self, hvalue⟩
  · have hvalue : value = .text arm.target.text := by
      simpa [UnionArm.json, haction, eq_comm] using h
    exact ⟨arm.target, List.mem_cons_of_mem _ List.mem_cons_self, hvalue⟩

/-- The steps in the JSON of an arm are those of its upgrade. -/
theorem UnionArm.exists_of_occurs_steps {arm : UnionArm} (h : arm.json.Occurs "steps" value) :
    ∃ call ∈ arm.nested, value = Identity.jsonSteps call.2 := by
  cases haction : arm.action with
  | passThrough => simp [UnionArm.json, haction, ArmAction.json] at h
  | upgrade steps =>
    have hvalue : value = Identity.jsonSteps steps := by
      simpa [UnionArm.json, haction, ArmAction.json, Identity.jsonSteps, eq_comm] using h
    refine ⟨(arm.source, steps), ?_, hvalue⟩
    rw [UnionArm.nested, haction]
    exact List.mem_singleton_self _

/-- The steps in the JSON of an entry of the log are those of its upgrade. -/
theorem FieldOperation.eq_of_occurs_steps {entry : FieldOperation}
    (h : entry.json.Occurs "steps" value) : value = Identity.jsonSteps entry.steps := by
  cases entry with
  | upgrade field steps =>
    simpa [FieldOperation.json, FieldOperation.steps, Identity.jsonSteps, eq_comm] using h
  | carry | move | remove | insert | convert => simp [FieldOperation.json] at h

theorem UpgradePath.exists_of_step {path : UpgradePath} {steps : Json}
    (h : path.json.Occurs "steps" steps) (hvalue : value ∈ steps.items) :
    ∃ identity ∈ path.body.identities, value = .text identity.text := by
  cases hbody : path.body with
  | record operations assignments =>
    have hcases : (∃ assignment ∈ assignments, assignment.json.Occurs "steps" steps) ∨
        ∃ entry ∈ operations, entry.json.Occurs "steps" steps := by
      simpa [UpgradePath.json, hbody] using h
    rcases hcases with ⟨assignment, hassignment, h⟩ | ⟨entry, hentry, h⟩
    · have hexpr : assignment.value.json.Occurs "steps" steps := by
        simpa [Assignment.json] using h
      obtain ⟨call, hcall, rfl⟩ := ValueExpr.exists_of_occurs_steps hexpr
      obtain ⟨identity, hidentity, hsame⟩ := exists_of_mem_jsonSteps hcall hvalue
      exact ⟨identity, List.mem_append_right _ (List.mem_flatMap.mpr ⟨_, hassignment, hidentity⟩),
        hsame⟩
    · rw [FieldOperation.eq_of_occurs_steps h] at hvalue
      obtain ⟨text, htext, rfl⟩ := Json.mem_items_texts hvalue
      obtain ⟨identity, hidentity, rfl⟩ := List.mem_map.mp htext
      exact ⟨identity, List.mem_append_left _ (List.mem_flatMap.mpr ⟨_, hentry, hidentity⟩), rfl⟩
  | union arms =>
    have hcases : ∃ arm ∈ arms, arm.json.Occurs "steps" steps := by
      simpa [UpgradePath.json, hbody] using h
    obtain ⟨arm, harm, h⟩ := hcases
    obtain ⟨call, hcall, rfl⟩ := UnionArm.exists_of_occurs_steps h
    obtain ⟨identity, hidentity, hsame⟩ := exists_of_mem_jsonSteps hcall hvalue
    exact ⟨identity, List.mem_flatMap.mpr ⟨arm, harm, List.mem_cons_of_mem _
      (List.mem_cons_of_mem _ hidentity)⟩, hsame⟩

theorem UpgradePath.exists_of_value {path : UpgradePath}
    (h : (path.json.member "assignments").Occurs "from" value) :
    ∃ identity ∈ path.body.identities, value = .text identity.text := by
  cases hbody : path.body with
  | record operations assignments =>
    have hcases : ∃ assignment ∈ assignments, assignment.value.json.Occurs "from" value := by
      simpa [UpgradePath.json, hbody, Assignment.json] using h
    obtain ⟨assignment, hassignment, h⟩ := hcases
    obtain ⟨call, hcall, rfl⟩ := ValueExpr.exists_of_occurs_from h
    refine ⟨call.1, List.mem_append_right _ (List.mem_flatMap.mpr ⟨_, hassignment, ?_⟩), rfl⟩
    exact List.mem_flatMap.mpr ⟨call, hcall, List.mem_cons_self⟩
  | union arms => simp [UpgradePath.json, hbody] at h

theorem UpgradePath.exists_of_arm {path : UpgradePath} {name : String}
    (hname : name ∈ ["from", "to"]) (h : (path.json.member "arms").Occurs name value) :
    ∃ identity ∈ path.body.identities, value = .text identity.text := by
  cases hbody : path.body with
  | record operations assignments =>
    simp [UpgradePath.json, hbody] at h
  | union arms =>
    have hcases : ∃ arm ∈ arms, arm.json.Occurs name value := by
      simpa [UpgradePath.json, hbody] using h
    obtain ⟨arm, harm, h⟩ := hcases
    obtain ⟨identity, hidentity, hsame⟩ := UnionArm.exists_of_occurs_end hname h
    exact ⟨identity, List.mem_flatMap.mpr ⟨arm, harm, hidentity⟩, hsame⟩

/-- **The identities in the JSON of a path are those of the path.** -/
theorem UpgradePath.exists_of_mentions {path : UpgradePath} (h : path.json.Mentions value) :
    ∃ identity ∈ path.source :: path.target :: path.body.identities,
      value = .text identity.text := by
  have hinner : (∃ identity ∈ path.body.identities, value = .text identity.text) →
      ∃ identity ∈ path.source :: path.target :: path.body.identities,
        value = .text identity.text := by
    rintro ⟨identity, hidentity, hsame⟩
    exact ⟨identity, List.mem_cons_of_mem _ (List.mem_cons_of_mem _ hidentity), hsame⟩
  cases h with
  | source => exact ⟨path.source, List.mem_cons_self, path.member_from⟩
  | target => exact ⟨path.target, List.mem_cons_of_mem _ List.mem_cons_self, path.member_to⟩
  | value h => exact hinner (exists_of_value h)
  | armSource h => exact hinner (exists_of_arm (by decide) h)
  | armTarget h => exact hinner (exists_of_arm (by decide) h)
  | step h hvalue => exact hinner (exists_of_step h hvalue)

end Mentions

/-! ## The JSON of nodes -/

namespace Node

/-- The name and the version in the JSON of a node are those of its identity. -/
theorem identityText?_json (node : Node) : node.json.identityText? = some node.identity.text := by
  rw [Json.identityText?, member_name, member_version, identity]
  cases node.version <;> rfl

/-- The ids in the JSON of a node are those of its targets. -/
theorem exists_of_occurs_target {node : Node} {name : String} (hname : name ∈ ["target", "of"])
    {value : Json} (h : node.json.Occurs name value) :
    ∃ id ∈ node.kind.targets, value = .number id := by
  rcases List.mem_pair.mp hname with rfl | rfl
  · cases hkind : node.kind with
    | base fields =>
      have hcases : ∃ field ∈ fields, value = .number field.target := by
        simpa [json, hkind, NodeField.json, eq_comm] using h
      obtain ⟨field, hfield, hvalue⟩ := hcases
      exact ⟨field.target, List.mem_map_of_mem hfield, hvalue⟩
    | super members =>
      have hcases : ∃ member ∈ members, value = .number member.target := by
        simpa [json, hkind, Member.json, eq_comm] using h
      obtain ⟨member, hmember, hvalue⟩ := hcases
      exact ⟨member.target, List.mem_map_of_mem hmember, hvalue⟩
    | custom | native | nullable | array => simp [json, hkind] at h
  · cases hkind : node.kind with
    | nullable wrapped | array wrapped =>
      have hvalue : value = .number wrapped := by simpa [json, hkind, eq_comm] using h
      exact ⟨wrapped, List.mem_singleton_self wrapped, hvalue⟩
    | base | super | custom | native => simp [json, hkind, NodeField.json, Member.json] at h

end Node

/-! ## The tables -/

namespace Built

variable {replayed : Replayed} {graph : Graph} {version : Nat}
  (hg : Built replayed 0 graph.sketch)

include hg

theorem map_fst_table (hv : version < replayed.chain.size) :
    (graph.table version).map Prod.fst = replayed.blueprint.names := by
  have hnames : graph.index.names version = replayed.blueprint.names := hg.names hv
  rw [Graph.table, List.map_filterMap, hnames]
  refine (List.filterMap_congr fun name hname => ?_).trans List.filterMap_some
  obtain ⟨node, -, hid, -⟩ := hg.exists_nodeAt hv hname
  rw [Index.resolve_eq_ok_iff.mpr hid]
  rfl

/-- The node of an entry of a table has its name. -/
theorem exists_node_of_mem_table {entry : String × NodeId} (h : entry ∈ graph.table version) :
    ∃ node ∈ graph.nodes.toList, node.id = entry.2 ∧ node.name = entry.1 := by
  obtain ⟨name, -, hentry⟩ := List.mem_filterMap.mp h
  split at hentry
  · rename_i id hresolve
    obtain rfl := Option.some.inj hentry
    obtain ⟨node, hnode, hname⟩ := hg.exists_node_named (Index.resolve_eq_ok_iff.mp hresolve)
    have hget := Graph.node_eq_ok_iff.mp hnode
    exact ⟨node, Array.mem_toList_iff.mpr (Array.mem_of_getElem? hget), (hg.owner hget).1, hname⟩
  · cases hentry

end Built

/-! ## The document -/

namespace Compilation

variable {c : Compilation}

theorem items_nodes (c : Compilation) :
    (c.json.member "nodes").items = c.graph.nodes.toList.map Node.json := rfl

theorem items_references (c : Compilation) :
    (c.json.member "references").items = c.plan.references.mapIdx CodeRef.json := rfl

theorem items_tables (c : Compilation) :
    (c.json.member "tables").items = (List.range c.graph.versionCount).map c.tableJson := rfl

theorem items_upgrades (c : Compilation) :
    (c.json.member "upgrades").items = c.plan.paths.map UpgradePath.json := rfl

theorem items_versions (c : Compilation) :
    (c.json.member "versions").items = c.chain.versions.map Version.json := rfl

theorem members_types (c : Compilation) (version : Nat) :
    ((c.tableJson version).member "types").members =
      (c.graph.table version).map fun (name, id) => (name, .number id) := rfl

/-- A version of a document is that of its place. -/
theorem exists_of_version {place : Nat} {version : Json}
    (h : (c.json.member "versions").items[place]? = some version) :
    ∃ found, c.chain.get? place = some found ∧ version = found.json := by
  rw [items_versions, List.getElem?_map, Option.map_eq_some_iff] at h
  obtain ⟨found, hfound, hsame⟩ := h
  exact ⟨found, hfound, hsame.symm⟩

section Sound

variable (hc : c.Sound)

include hc

theorem ids_json {place : Nat} {node : Json}
    (h : (c.json.member "nodes").items[place]? = some node) :
    node.member "id" = .number place := by
  rw [items_nodes, List.getElem?_map, Option.map_eq_some_iff] at h
  obtain ⟨found, hfound, rfl⟩ := h
  rw [Array.getElem?_toList] at hfound
  rw [Node.member_id, (hc.graph.owner hfound).1]

theorem targets_json {node : Json} (hnode : node ∈ (c.json.member "nodes").items) {name : String}
    (hname : name ∈ ["target", "of"]) {value : Json} (h : node.Occurs name value) :
    ∃ target ∈ (c.json.member "nodes").items, target.member "id" = value := by
  rw [items_nodes] at hnode ⊢
  obtain ⟨found, hfound, rfl⟩ := List.mem_map.mp hnode
  obtain ⟨place, hget⟩ := List.mem_iff_getElem?.mp hfound
  rw [Array.getElem?_toList] at hget
  obtain ⟨id, hid, rfl⟩ := Node.exists_of_occurs_target hname h
  have hlt : id < c.graph.nodes.size := hc.graph.inRange.target hget id hid
  have htarget : c.graph.nodes[id]? = some c.graph.nodes[id] := Array.getElem?_eq_getElem hlt
  refine ⟨_, List.mem_map_of_mem (Array.mem_toList_iff.mpr (Array.getElem_mem hlt)), ?_⟩
  rw [Node.member_id, (hc.graph.owner htarget).1]

theorem entries_json {table : Json} (htable : table ∈ (c.json.member "tables").items)
    {entry : String × Json} (hentry : entry ∈ (table.member "types").members) :
    ∃ node ∈ (c.json.member "nodes").items, node.member "id" = entry.2 ∧
      node.member "name" = .text entry.1 := by
  rw [items_tables] at htable
  obtain ⟨version, -, rfl⟩ := List.mem_map.mp htable
  rw [members_types] at hentry
  obtain ⟨⟨name, id⟩, hmem, rfl⟩ := List.mem_map.mp hentry
  obtain ⟨node, hnode, hid, hname⟩ := hc.graph.exists_node_of_mem_table hmem
  refine ⟨node.json, List.mem_map_of_mem hnode, ?_, ?_⟩
  · rw [Node.member_id, hid]
  · rw [Node.member_name, hname]

theorem names_json {table : Json} (htable : table ∈ (c.json.member "tables").items) :
    (table.member "types").members.map Prod.fst = c.schema.blueprint.names := by
  rw [items_tables] at htable
  obtain ⟨version, hversion, rfl⟩ := List.mem_map.mp htable
  have hv : version < c.schema.chain.size := by
    rw [← hc.graph.versionCount_eq]
    exact List.mem_range.mp hversion
  rw [members_types, List.map_map, ← hc.graph.map_fst_table hv]
  rfl

theorem codes_json {upgrade : Json} (hupgrade : upgrade ∈ (c.json.member "upgrades").items)
    {name : String} (hname : name ∈ ["converter", "initializer"]) {value : Json}
    (h : upgrade.Occurs name value) :
    ∃ place < (c.json.member "references").items.length, value = .number place := by
  rw [items_upgrades] at hupgrade
  obtain ⟨path, hpath, rfl⟩ := List.mem_map.mp hupgrade
  obtain ⟨id, hid, hvalue⟩ := UpgradePath.exists_of_occurs_code hname h
  rw [items_references, List.length_mapIdx]
  exact ⟨id, codes_lt hc hpath id hid, hvalue⟩

theorem identities_json {upgrade : Json} (hupgrade : upgrade ∈ (c.json.member "upgrades").items)
    {value : Json} (h : upgrade.Mentions value) : ∃ text, value = .text text ∧
      ((c.json.member "nodes").items.map Json.identityText?).count (some text) = 1 := by
  rw [items_upgrades] at hupgrade
  obtain ⟨path, hpath, rfl⟩ := List.mem_map.mp hupgrade
  obtain ⟨identity, hidentity, rfl⟩ := UpgradePath.exists_of_mentions h
  obtain ⟨node, hnode, rfl⟩ := exists_node_of_mem_identities hc hpath identity hidentity
  have htexts : (c.json.member "nodes").items.map Json.identityText? =
      (c.graph.nodes.toList.map fun node => node.identity.text).map some := by
    rw [items_nodes, List.map_map, List.map_map]
    exact List.map_congr_left fun node _ => node.identityText?_json
  refine ⟨_, rfl, ?_⟩
  rw [htexts, List.count_map_of_injective _ _ (Option.some_injective _)]
  exact hc.graph.count_text hc.schema hnode

end Sound

/-- The current version is the last one. -/
theorem current_json (hsound : c.chain.Sound) :
    ∃ version : Json, ∃ name, (c.json.member "versions").items.getLast? = some version ∧
      version.member "name" = .text name ∧ c.json.member "current_version" = .text name := by
  have hsize : 0 < c.chain.size := hsound.nonempty
  obtain ⟨version, hversion⟩ : ∃ version, c.chain.get? c.chain.currentIndex = some version := by
    refine ⟨_, List.getElem?_eq_getElem ?_⟩
    rw [Chain.currentIndex]
    exact Nat.sub_lt hsize Nat.one_pos
  refine ⟨version.json, version.name, ?_, rfl, ?_⟩
  · rw [items_versions, List.getLast?_map, List.getLast?_eq_getElem?]
    exact congrArg _ hversion
  · have hname : c.chain.nameOf c.chain.currentIndex = version.name := by
      rw [Chain.nameOf, hversion]
      rfl
    rw [← hname]
    rfl

section Linked

variable (hlinked : c.chain.Linked)

include hlinked

theorem versions_json {place : Nat} {version : Json}
    (h : (c.json.member "versions").items[place]? = some version) :
    version.member "index" = .number place ∧
      version.member "current" =
        .boolean (place + 1 == (c.json.member "versions").items.length) := by
  obtain ⟨found, hfound, rfl⟩ := exists_of_version h
  have hlength : (c.json.member "versions").items.length = c.chain.size := List.length_map _
  refine ⟨congrArg Json.number (hlinked.index hfound), congrArg Json.boolean ?_⟩
  rw [Bool.eq_iff_iff, hlinked.current hfound, hlength, beq_iff_eq]

theorem first_json {version : Json}
    (h : (c.json.member "versions").items[0]? = some version) :
    version.member "previous" = .null := by
  obtain ⟨found, hfound, rfl⟩ := exists_of_version h
  exact congrArg Json.ofText? (hlinked.first hfound)

theorem previous_json {place : Nat} {before version : Json}
    (hbefore : (c.json.member "versions").items[place]? = some before)
    (h : (c.json.member "versions").items[place + 1]? = some version) :
    ∃ name, before.member "name" = .text name ∧ version.member "previous" = .text name := by
  obtain ⟨earlier, hearlier, rfl⟩ := exists_of_version hbefore
  obtain ⟨found, hfound, rfl⟩ := exists_of_version h
  exact ⟨earlier.name, rfl, congrArg Json.ofText? (hlinked.continued hearlier hfound)⟩

end Linked

/-- **The interchange document of a compiled schema is closed**, and lists all nodes, code, tables,
upgrades and versions of the schema, each table with all names of the graph. -/
theorem json_isClosed {config : Config} {workers : Nat} (h : config.compile workers = .ok c) :
    c.json.IsClosed ∧ (c.json.member "nodes").items.length = c.graph.nodes.size ∧
      (c.json.member "references").items.length = c.plan.references.length ∧
      (c.json.member "tables").items.length = c.graph.versionCount ∧
      (c.json.member "upgrades").items.length = c.plan.paths.length ∧
      (c.json.member "versions").items.length = c.chain.size ∧
      ∀ table ∈ (c.json.member "tables").items, ∀ name,
        name ∈ (table.member "types").members.map Prod.fst ↔ c.graph.IsName name := by
  have hc := sound_of_compile h
  have hlinked : c.chain.Linked := Chain.linked_of_ofDefinition (Config.accepts_of_compile h).chain
  have hclosed : c.json.IsClosed := {
    ids := ids_json hc
    targets := fun _ hnode _ hname _ => targets_json hc hnode hname
    entries := fun _ htable _ => entries_json hc htable
    names := ⟨_, fun _ => names_json hc⟩
    codes := fun _ hupgrade _ hname _ => codes_json hc hupgrade hname
    identities := fun _ hupgrade _ => identities_json hc hupgrade
    versions := versions_json hlinked
    first := first_json hlinked
    previous := previous_json hlinked
    current := current_json hc.schema.chain }
  refine ⟨hclosed, by simp [items_nodes], by simp [items_references], by simp [items_tables],
    by simp [items_upgrades], List.length_map _, fun table htable name => ?_⟩
  rw [names_json hc htable]
  exact (hc.graph.isName_iff hc.schema).symm

theorem json_isClosed_sample : ∃ c, Config.sample.compile 1 = .ok c ∧
    UpgradePath.sample.json ∈ (c.json.member "upgrades").items ∧
      ((c.json.member "nodes").items.map Json.identityText?).count (some "A@1") = 1 ∧
        1 < (c.json.member "references").items.length := by
  obtain ⟨c, -, hc, -, -, -, -, -, hpath⟩ := Config.exists_compile_sample
  obtain ⟨hclosed, -⟩ := json_isClosed hc
  have hupgrade : UpgradePath.sample.json ∈ (c.json.member "upgrades").items :=
    List.mem_map_of_mem hpath
  have hsteps : Identity.jsonSteps [⟨"A", some 1⟩] = .texts ["A@1"] := rfl
  have hstep : UpgradePath.sample.json.Mentions (.text "A@1") := by
    refine @Json.Mentions.step _ (.texts ["A@1"]) _ ?_ List.mem_cons_self
    simp [UpgradePath.json, UpgradePath.sample, FieldOperation.json, hsteps]
  have hcode : UpgradePath.sample.json.Occurs "converter" (.number 1) := by
    simp [UpgradePath.json, UpgradePath.sample, FieldOperation.json]
  obtain ⟨text, htext, hcount⟩ := hclosed.identities _ hupgrade _ hstep
  obtain rfl := Json.text.inj htext
  obtain ⟨place, hplace, hsame⟩ := hclosed.codes _ hupgrade _ List.mem_cons_self _ hcode
  obtain rfl := Json.number.inj hsame
  exact ⟨c, hc, hupgrade, hcount, hplace⟩

end Compilation

end SchemaEvolution

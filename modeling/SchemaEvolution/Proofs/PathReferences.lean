import SchemaEvolution.Proofs.NestedUpgrades

/-!
# What upgrade paths refer to

A path refers to code by its place in the plan and to nodes by their identities, both in the log of
its operations and in the values or arms that do the work. The code is always registered, and the
identities are always those of nodes.

## Main definitions

* `UpgradeBody.codes`: the places of the code that a path calls
* `UpgradeBody.identities`: the identities that the body of a path mentions

## Main results

* `Derivation.exists_of_mem_operations`: where the entries of a log come from
* `Compilation.codes_lt`: the code that paths call is registered
* `Compilation.exists_node_of_mem_identities`: the identities in paths are those of nodes
-/

namespace SchemaEvolution

/-! ## Code and identities in a path -/

/-- The places of the code that an expression calls. -/
def ValueExpr.codes : ValueExpr → List RefId
  | .oldField _ => []
  | .convert converter _ input => converter :: input.codes
  | .create initializer _ => [initializer]
  | .upgrade _ _ _ input => input.codes

/-- The place of the code that an entry of the log mentions. -/
def FieldOperation.codes : FieldOperation → List RefId
  | .insert _ initializer => [initializer]
  | .convert _ converter => [converter]
  | .carry _ | .move .. | .remove _ | .upgrade .. => []

/-- The identities that an entry of the log mentions. -/
def FieldOperation.steps : FieldOperation → List Identity
  | .upgrade _ steps => steps
  | .carry _ | .move .. | .remove _ | .insert .. | .convert .. => []

/-- The identities that upgrades lead from and through. -/
def callIdentities (calls : List (Identity × List Identity)) : List Identity :=
  calls.flatMap fun call => call.1 :: call.2

/-- The places of the code that a path calls. -/
def UpgradeBody.codes : UpgradeBody → List RefId
  | .record operations assignments => operations.flatMap FieldOperation.codes ++
      assignments.flatMap fun assignment => assignment.value.codes
  | .union _ => []

/-- The identities that an arm mentions. -/
def UnionArm.identities (arm : UnionArm) : List Identity :=
  arm.source :: arm.target :: callIdentities arm.nested

/-- **The identities that the body of a path mentions.** -/
def UpgradeBody.identities : UpgradeBody → List Identity
  | .record operations assignments => operations.flatMap FieldOperation.steps ++
      assignments.flatMap fun assignment => callIdentities assignment.value.nested
  | .union arms => arms.flatMap UnionArm.identities

/-! ## The log of a record -/

namespace Derivation

variable {source : Derivation} {old next : Node} {version : Nat}

/-- **The entries of a log come from the changes**, each from a resolved one. -/
theorem exists_of_mem_operations {steps : List Step} {carried out : OrderedMap Carried}
    {operations : List FieldOperation}
    (h : source.replay old version steps carried = .ok (operations, out))
    {entry : FieldOperation} (hentry : entry ∈ operations) :
    ∃ step ∈ steps, ∃ change, source.resolveChange old version step.change = .ok change ∧
      entry = operation change := by
  induction steps generalizing carried operations with
  | nil =>
    obtain ⟨rfl, -⟩ := Prod.mk.inj (Except.ok.inj h)
    cases hentry
  | cons step rest ih =>
    obtain ⟨change, middle, later, hchange, -, hlater, rfl⟩ := replay_cons_eq_ok h
    rcases List.mem_cons.mp hentry with rfl | hmem
    · exact ⟨step, List.mem_cons_self, change, hchange, rfl⟩
    · obtain ⟨step', hstep', hrest⟩ := ih hlater hmem
      exact ⟨step', List.mem_cons_of_mem _ hstep', hrest⟩

theorem lt_of_resolve {type : TypeRef} {code : CodeRef} {names : List String}
    {out : (TypeRef × NodeId) × (RefId × CodeContext)}
    (h : source.resolve old version type code names = .ok out) :
    out.2.1 < source.references.length := by
  obtain ⟨-, hcode, -⟩ := resolve_eq_ok_iff.mp h
  exact (List.getElem?_eq_some_iff.mp (getElem?_of_reference hcode)).1

/-- The log of a change mentions registered code, and no identities. -/
theorem codes_operation {declared : FieldChange TypeRef CodeRef} {change : ResolvedChange}
    (h : source.resolveChange old version declared = .ok change) :
    (∀ id ∈ (operation change).codes, id < source.references.length) ∧
      (operation change).steps = [] := by
  cases declared with
  | move from' to' index =>
    obtain rfl := Except.ok.inj h
    exact ⟨nofun, rfl⟩
  | remove field =>
    obtain rfl := Except.ok.inj h
    exact ⟨nofun, rfl⟩
  | insert field type code names index =>
    obtain ⟨out, hresolve, rfl⟩ := FieldChange.traverse_insert_eq_ok h
    refine ⟨fun id hid => ?_, rfl⟩
    rw [List.mem_singleton.mp hid]
    exact lt_of_resolve hresolve
  | convert field type code names =>
    obtain ⟨out, hresolve, rfl⟩ := FieldChange.traverse_convert_eq_ok h
    refine ⟨fun id hid => ?_, rfl⟩
    rw [List.mem_singleton.mp hid]
    exact lt_of_resolve hresolve

/-- The code in carried values is registered. -/
theorem codes_replay {steps : List Step} {out : OrderedMap Carried}
    {operations : List FieldOperation}
    (h : source.replay old version steps (initial old) = .ok (operations, out))
    (hinitial : ∀ entry ∈ (initial old).entries, entry.2.value.codes = []) :
    ∀ entry ∈ out.entries, ∀ id ∈ entry.2.value.codes, id < source.references.length := by
  refine forall_replay (P := fun carried => ∀ id ∈ carried.value.codes,
    id < source.references.length) (fun hresolve id hid => ?_)
    (fun hresolve hcarried id hid => ?_) h fun entry hentry => ?_
  · rw [List.mem_singleton.mp hid]
    exact lt_of_resolve hresolve
  · rcases List.mem_cons.mp hid with rfl | hid
    · exact lt_of_resolve hresolve
    · exact hcarried id hid
  · rw [hinitial entry hentry]
    exact nofun

/-- An assignment calls the code of the carried value, and its log has the steps of its upgrade and
no code. -/
theorem codes_of_assign {field : String} {carried : Carried} {declared : NodeField}
    {out : List FieldOperation × Assignment}
    (h : source.assign old next version field carried declared = .ok out) :
    out.2.value.codes = carried.value.codes ∧ ∀ entry ∈ out.1, entry.codes = [] ∧
      ∀ identity ∈ entry.steps, identity ∈ callIdentities out.2.value.nested := by
  obtain ⟨log, assignment⟩ := out
  obtain ⟨-, hcases⟩ := cases_of_assign h
  rcases hcases with ⟨-, rfl, rfl⟩ | ⟨-, first, steps, -, rfl, rfl⟩
  · refine ⟨rfl, fun entry hentry => ?_⟩
    split at hentry
    · obtain rfl := List.mem_singleton.mp hentry
      exact ⟨rfl, nofun⟩
    · cases hentry
  · refine ⟨rfl, fun entry hentry => ?_⟩
    obtain rfl := List.mem_singleton.mp hentry
    refine ⟨rfl, fun identity hidentity => ?_⟩
    exact List.mem_flatMap.mpr
      ⟨(first, steps), List.mem_cons_self, List.mem_cons_of_mem _ hidentity⟩

end Derivation

/-! ## Paths -/

namespace Compilation

variable {c : Compilation} {path : UpgradePath} (hc : c.Sound)

include hc

/-- **The code that paths call is registered.** -/
theorem codes_lt (hpath : path ∈ c.plan.paths) :
    ∀ id ∈ path.body.codes, id < c.plan.references.length := by
  rw [references_eq hc]
  cases hbody : path.body with
  | record operations assignments =>
    obtain ⟨version, old, next, -, -, -, ⟨x⟩, hrecord, hlabel, -⟩ :=
      exists_crossing hc hpath hbody
    obtain ⟨log, carried, outs, hreplay, rfl, rfl, hassigned⟩ :=
      x.exists_assigned hc.schema hc.graph hlabel hrecord
    have hinitial : ∀ entry ∈ (Derivation.initial old).entries, entry.2.value.codes = [] := by
      intro entry hentry
      rw [x.entries_initial] at hentry
      obtain ⟨field, -, rfl⟩ := List.mem_map.mp hentry
      rfl
    intro id hid
    rcases List.mem_append.mp hid with hid | hid
    · obtain ⟨entry, hentry, hid⟩ := List.mem_flatMap.mp hid
      rcases List.mem_append.mp hentry with hentry | hentry
      · obtain ⟨step, -, change, hchange, rfl⟩ :=
          Derivation.exists_of_mem_operations hreplay hentry
        exact (Derivation.codes_operation hchange).1 id hid
      · obtain ⟨out, hout, hentry⟩ := List.mem_flatMap.mp hentry
        obtain ⟨field, -, value, -, -, -, hassign⟩ := exists_left_of_forall₂ hassigned hout
        rw [((Derivation.codes_of_assign hassign).2 entry hentry).1] at hid
        cases hid
    · obtain ⟨assignment, hassignment, hid⟩ := List.mem_flatMap.mp hid
      obtain ⟨out, hout, rfl⟩ := List.mem_map.mp hassignment
      obtain ⟨field, -, value, hmem, -, -, hassign⟩ := exists_left_of_forall₂ hassigned hout
      rw [(Derivation.codes_of_assign hassign).1] at hid
      exact Derivation.codes_replay hreplay hinitial _ hmem id hid
  | union arms => exact nofun

/-- A label of a type is that of one of its nodes. -/
theorem exists_node_of_labelAt {version label : Nat} {name : String}
    (htype : c.schema.IsUpgradable name) (h : c.schema.LabelAt version name label) :
    ∃ node ∈ c.graph.nodes.toList, node.identity = ⟨name, some label⟩ := by
  have hv : version < c.schema.chain.size := Nat.lt_of_le_of_lt h.le h.lt_size
  obtain ⟨node, label', hnode, hlabel', hidentity⟩ :=
    hc.graph.exists_nodeAt_labelAt hv htype.mem_names htype.evolves
  obtain rfl := h.unique hlabel'
  obtain ⟨id, -, hget⟩ := Graph.nodeAt_eq_ok_iff.mp hnode
  exact ⟨node, Array.mem_toList_iff.mpr (Array.mem_of_getElem? hget), hidentity⟩

/-- What goes over a version leads from nodes through nodes. -/
theorem exists_node_of_stepsOver {version : Nat} {calls : List (Identity × List Identity)}
    (h : ∀ call ∈ calls, c.schema.StepsOver version call.1 call.2) :
    ∀ identity ∈ callIdentities calls, ∃ node ∈ c.graph.nodes.toList, node.identity = identity := by
  intro identity hidentity
  obtain ⟨⟨first, steps⟩, hcall, hidentity⟩ := List.mem_flatMap.mp hidentity
  obtain ⟨name, next, rfl, rfl, htype, hv, haffected, hnext⟩ := h _ hcall
  rcases List.mem_cons.mp hidentity with rfl | hidentity
  · exact exists_node_of_labelAt hc htype (.of_affected (Nat.lt_of_succ_lt hv) haffected)
  · obtain rfl := List.mem_singleton.mp hidentity
    exact exists_node_of_labelAt hc htype hnext

/-- The identities in a record path are those of nodes: what its log and its values go through. -/
theorem exists_node_of_record (hpath : path ∈ c.plan.paths) {operations : List FieldOperation}
    {assignments : List Assignment} (hbody : path.body = .record operations assignments) :
    ∀ identity ∈ (UpgradeBody.record operations assignments).identities,
      ∃ node ∈ c.graph.nodes.toList, node.identity = identity := by
  intro identity hidentity
  obtain ⟨version, old, next, -, -, -, ⟨x⟩, hrecord, hlabel, -⟩ := exists_crossing hc hpath hbody
  obtain ⟨log, carried, outs, hreplay, rfl, rfl, hassigned⟩ :=
    x.exists_assigned hc.schema hc.graph hlabel hrecord
  obtain ⟨changed, -, hchanged⟩ := exists_changedAt hc (Nat.lt_of_succ_lt x.lt_size)
  have hnodes : ∀ out ∈ outs, ∀ identity ∈ callIdentities out.2.value.nested,
      ∃ node ∈ c.graph.nodes.toList, node.identity = identity := by
    intro out hout
    obtain ⟨field, -, value, hmem, -, htarget, hassign⟩ := exists_left_of_forall₂ hassigned hout
    exact exists_node_of_stepsOver hc (x.upgrades_of_assign hc.schema hc.graph hchanged
      (x.origin_replay hreplay _ hmem) htarget hassign).2
  rcases List.mem_append.mp hidentity with hidentity | hidentity
  · obtain ⟨entry, hentry, hidentity⟩ := List.mem_flatMap.mp hidentity
    rcases List.mem_append.mp hentry with hentry | hentry
    · obtain ⟨step, -, change, hchange, rfl⟩ := Derivation.exists_of_mem_operations hreplay hentry
      rw [(Derivation.codes_operation hchange).2] at hidentity
      cases hidentity
    · obtain ⟨out, hout, hentry⟩ := List.mem_flatMap.mp hentry
      obtain ⟨field, -, value, -, -, -, hassign⟩ := exists_left_of_forall₂ hassigned hout
      exact hnodes out hout identity
        (((Derivation.codes_of_assign hassign).2 entry hentry).2 identity hidentity)
  · obtain ⟨assignment, hassignment, hidentity⟩ := List.mem_flatMap.mp hidentity
    obtain ⟨out, hout, rfl⟩ := List.mem_map.mp hassignment
    exact hnodes out hout identity hidentity

/-- The identities in a union path are those of nodes: the ends of its arms and what they go
through. -/
theorem exists_node_of_union (hpath : path ∈ c.plan.paths) {arms : List UnionArm}
    (hbody : path.body = .union arms) : ∀ identity ∈ (UpgradeBody.union arms).identities,
      ∃ node ∈ c.graph.nodes.toList, node.identity = identity := by
  intro identity hidentity
  obtain ⟨version, old, next, members, -, hv, hkind, hold, hnext, harms⟩ :=
    exists_union hc hpath hbody
  obtain ⟨arm, harm, hidentity⟩ := List.mem_flatMap.mp hidentity
  obtain ⟨member, hmember, hderived⟩ := exists_left_of_forall₂ harms harm
  obtain ⟨later, first, last, -, hfirst, hlast, hsource, htarget, -⟩ :=
    Derivation.arm_eq_ok hderived
  have hmem : ∀ {id : NodeId} {node : Node}, c.graph.node id = .ok node →
      node ∈ c.graph.nodes.toList := fun hnode =>
    Array.mem_toList_iff.mpr (Array.mem_of_getElem? (Graph.node_eq_ok_iff.mp hnode))
  rcases List.mem_cons.mp hidentity with rfl | hidentity
  · exact ⟨first, hmem hfirst, hsource.symm⟩
  rcases List.mem_cons.mp hidentity with rfl | hidentity
  · exact ⟨last, hmem hlast, htarget.symm⟩
  have hsteps := hc.graph.stepsOver_of_arm hc.schema hv hkind hold hnext hmember hderived
  exact exists_node_of_stepsOver hc hsteps identity hidentity

/-- **The identities in paths are those of nodes.** -/
theorem exists_node_of_mem_identities (hpath : path ∈ c.plan.paths) :
    ∀ identity ∈ path.source :: path.target :: path.body.identities,
      ∃ node ∈ c.graph.nodes.toList, node.identity = identity := by
  intro identity hidentity
  obtain ⟨label, next, hconnects⟩ := exists_connects hc hpath
  rcases List.mem_cons.mp hidentity with rfl | hidentity
  · rw [hconnects.source]
    exact exists_node_of_labelAt hc hconnects.type
      (.of_affected (Nat.lt_of_succ_lt hconnects.lt_size) hconnects.affected)
  rcases List.mem_cons.mp hidentity with rfl | hidentity
  · rw [hconnects.target]
    exact exists_node_of_labelAt hc hconnects.type hconnects.follows
  cases hbody : path.body with
  | record operations assignments =>
    exact exists_node_of_record hc hpath hbody identity (hbody ▸ hidentity)
  | union arms => exact exists_node_of_union hc hpath hbody identity (hbody ▸ hidentity)

end Compilation

end SchemaEvolution

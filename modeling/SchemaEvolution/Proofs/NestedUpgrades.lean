import SchemaEvolution.Proofs.AssignmentTypes
import SchemaEvolution.Proofs.UpgradePaths

/-!
# A plan is closed under nested upgrades

Executing a path may upgrade values of other types on the way. Each such upgrade goes over the same
version as the path itself, in one step, and the plan has the one path that it takes. In a record
only old values are upgraded that no change has touched, and these are upgraded exactly when their
type changes.

## Main definitions

* `ValueExpr.nested`, `UpgradeBody.nested`: the upgrades that an expression and a path ask for
* `Replayed.StepsOver`: an upgrade goes over one version in one step
* `Origin`: what is carried for a field is an old value, or comes from a change
* `Assignment.Upgrades`: what a record upgrades

## Main results

* `Derivation.forall_replay`: what all changes keep, the replay keeps
* `Built.cases_of_arm`: what an arm of a union does with its member
* `Crossing.upgrades_of_assign`, `Built.stepsOver_of_arm`: nested upgrades of records and unions
* `Compilation.nested_closed`: a plan is closed under nested upgrades
-/

namespace SchemaEvolution

/-! ## The upgrades that a path asks for -/

/-- The upgrades in an expression, each from an identity through others. -/
def ValueExpr.nested : ValueExpr → List (Identity × List Identity)
  | .oldField _ => []
  | .convert _ _ input => input.nested
  | .create .. => []
  | .upgrade _ source steps input => (source, steps) :: input.nested

/-- The upgrade of a member, if it is upgraded. -/
def UnionArm.nested (arm : UnionArm) : List (Identity × List Identity) :=
  match arm.action with
  | .passThrough => []
  | .upgrade steps => [(arm.source, steps)]

/-- **The upgrades that a path asks for** in the values of its fields or in its arms. -/
def UpgradeBody.nested : UpgradeBody → List (Identity × List Identity)
  | .record _ assignments => assignments.flatMap fun assignment => assignment.value.nested
  | .union arms => arms.flatMap UnionArm.nested

/-! ## Upgrades over one version -/

/-- **An upgrade goes over one version in one step**: from the label of a changing type there to its
next label. -/
def Replayed.StepsOver (replayed : Replayed) (v : Nat) (first : Identity) (steps : List Identity) :
    Prop :=
  ∃ name next, first = ⟨name, some v⟩ ∧ steps = [⟨name, some next⟩] ∧
    replayed.IsUpgradable name ∧ v + 1 < replayed.chain.size ∧ replayed.Affected v name ∧
      replayed.LabelAt (v + 1) name next

/-- A declared type that is affected is a base or a super type. -/
theorem Replayed.Sound.isUpgradable_of_affected {replayed : Replayed} (hr : replayed.Sound)
    {v : Nat} {name : String} {category : TypeCategory}
    (hcategory : replayed.definition.catalog.category? name = some category)
    (haffected : replayed.Affected v name) : replayed.IsUpgradable name := by
  have hevolves : replayed.blueprint.evolves name = true :=
    Bool.of_not_eq_false fun hstays => hr.not_affected_of_not_evolves hstays haffected
  rw [Replayed.evolves_of_category hcategory] at hevolves
  cases category with
  | base => exact .inl hcategory
  | super => exact .inr hcategory
  | custom => cases hevolves
  | native type => cases hevolves

/-- **An affected type is upgraded in one step.** -/
theorem Built.stepsOver_of_affected {replayed : Replayed} {graph : Graph}
    (hg : Built replayed 0 graph.sketch) {v : Nat} {name : String} {first last : Node}
    (htype : replayed.IsUpgradable name) (hv : v + 1 < replayed.chain.size)
    (haffected : replayed.Affected v name) (hfirst : graph.nodeAt name v = .ok first)
    (hlast : graph.nodeAt name (v + 1) = .ok last) :
    replayed.StepsOver v first.identity [last.identity] := by
  obtain ⟨first', label, hfirst', hlabel, hidentity⟩ :=
    hg.exists_nodeAt_labelAt (Nat.lt_of_succ_lt hv) htype.mem_names htype.evolves
  obtain ⟨last', next, hlast', hnext, hidentity'⟩ :=
    hg.exists_nodeAt_labelAt hv htype.mem_names htype.evolves
  obtain rfl := Except.ok.inj (hfirst.symm.trans hfirst')
  obtain rfl := Except.ok.inj (hlast.symm.trans hlast')
  obtain rfl := hlabel.unique (.of_affected (Nat.lt_of_succ_lt hv) haffected)
  exact ⟨name, next, hidentity, by rw [hidentity'], htype, hv, haffected, hnext⟩

/-! ## Records -/

/-- **What all changes keep, the replay keeps**: a property of what insertions bring in, and that
conversions preserve. -/
theorem Derivation.forall_replay {source : Derivation} {old : Node} {version : Nat}
    {P : Carried → Prop}
    (hstart : ∀ {type code names out}, source.resolve old version type code names = .ok out →
      P (start out.1 out.2 names))
    (hrework : ∀ {type code names out carried},
      source.resolve old version type code names = .ok out → P carried →
        P (rework out.1 out.2 names carried))
    {steps : List Step} {carried out : OrderedMap Carried} {operations : List FieldOperation}
    (h : source.replay old version steps carried = .ok (operations, out))
    (hcarried : ∀ entry ∈ carried.entries, P entry.2) : ∀ entry ∈ out.entries, P entry.2 := by
  induction steps generalizing carried operations with
  | nil =>
    obtain ⟨-, rfl⟩ := Prod.mk.inj (Except.ok.inj h)
    exact hcarried
  | cons step rest ih =>
    obtain ⟨change, middle, later, hchange, happly, hlater, -⟩ := replay_cons_eq_ok h
    refine ih hlater ?_
    rintro ⟨field, value⟩ hentry
    have hbrings := FieldChange.brings_of_apply happly hentry
    obtain ⟨type, declared⟩ := step
    cases declared with
    | move from' to' index =>
      obtain rfl := Except.ok.inj hchange
      cases hbrings with
      | stay _ hmem => exact hcarried _ hmem
      | move hmem => exact hcarried (from', value) hmem
    | remove removed =>
      obtain rfl := Except.ok.inj hchange
      cases hbrings with
      | stay _ hmem => exact hcarried _ hmem
    | insert inserted introduced code names index =>
      obtain ⟨out, hresolve, rfl⟩ := FieldChange.traverse_insert_eq_ok hchange
      cases hbrings with
      | stay _ hmem => exact hcarried _ hmem
      | insert => exact hstart hresolve
    | convert converted introduced code names =>
      obtain ⟨out, hresolve, rfl⟩ := FieldChange.traverse_convert_eq_ok hchange
      cases hbrings with
      | stay _ hmem => exact hcarried _ hmem
      | convert hmem => exact hrework hresolve (hcarried _ hmem)

/-- **What is carried for a field** is an old value, with a node of the old side, or comes from a
change, with a node of the new side and without upgrades in it. -/
inductive Origin (replayed : Replayed) (graph : Graph) (v : Nat) : Carried → Prop
  | old {field : String} {type : TypeRef} {target : NodeId} (htype : type ∈ replayed.typeRefs)
      (htarget : graph.index.node? type.canonical v = some target) :
      Origin replayed graph v ⟨.oldField field, type, target⟩
  | created {code : RefId} {context : CodeContext} {type : TypeRef} {target : NodeId}
      (htarget : graph.index.node? type.canonical (v + 1) = some target) :
      Origin replayed graph v ⟨.create code context, type, target⟩
  | converted {code : RefId} {context : CodeContext} {input : ValueExpr} {type : TypeRef}
      {target : NodeId} (hinput : input.nested = [])
      (htarget : graph.index.node? type.canonical (v + 1) = some target) :
      Origin replayed graph v ⟨.convert code context input, type, target⟩

theorem Origin.nested_eq_nil {replayed : Replayed} {graph : Graph} {v : Nat} {carried : Carried}
    (h : Origin replayed graph v carried) : carried.value.nested = [] := by
  cases h with
  | old => rfl
  | created => rfl
  | converted hinput => exact hinput

/-- **What a record upgrades**, where `changed` are the types that change: an old value that is not
converted, when its type is one of them, inside the modifier of the type. There is no other upgrade
in a value. -/
inductive Assignment.Upgrades (changed : NameSet) : Assignment → Prop
  | kept {field old : String} {type : TypeRef} (h : type.canonical ∉ changed) :
      Upgrades changed ⟨field, type, .oldField old⟩
  | upgraded {field old : String} {type : TypeRef} {first : Identity} {steps : List Identity}
      (h : type.canonical ∈ changed) :
      Upgrades changed ⟨field, type, .upgrade type.modifier first steps (.oldField old)⟩
  | created {field : String} {type : TypeRef} {code : RefId} {context : CodeContext} :
      Upgrades changed ⟨field, type, .create code context⟩
  | converted {field : String} {type : TypeRef} {code : RefId} {context : CodeContext}
      {input : ValueExpr} (hinput : input.nested = []) :
      Upgrades changed ⟨field, type, .convert code context input⟩

namespace Crossing

variable {replayed : Replayed} {graph : Graph} {v : Nat} {old next : Node}
  (x : Crossing replayed graph v old next)

include x

/-- The values of the old fields are old values. -/
theorem origin_initial {entry : String × Carried}
    (hentry : entry ∈ (Derivation.initial old).entries) : Origin replayed graph v entry.2 := by
  rw [x.entries_initial] at hentry
  obtain ⟨field, hfield, rfl⟩ := List.mem_map.mp hentry
  obtain ⟨entry, hmem, hmatches⟩ := exists_left_of_forall₂ x.oldFields hfield
  have htype := Replayed.mem_typeRefs_of_layout x.beforeLayout (List.mem_map_of_mem hmem)
  have htarget := hmatches.target
  rw [← hmatches.type] at htype htarget
  exact .old htype htarget

/-- What is carried in the end is an old value or comes from a change. -/
theorem origin_replay {carried : OrderedMap Carried} {log : List FieldOperation}
    (hreplay : (replayed.derivation graph).replay old (v + 1) x.steps (Derivation.initial old) =
      .ok (log, carried)) : ∀ entry ∈ carried.entries, Origin replayed graph v entry.2 := by
  refine Derivation.forall_replay (fun hresolve => ?_) (fun hresolve horigin => ?_) hreplay
    fun _ => x.origin_initial
  · obtain ⟨rfl, -, -, htarget⟩ := Derivation.resolve_eq_ok_iff.mp hresolve
    exact .created htarget
  · obtain ⟨rfl, -, -, htarget⟩ := Derivation.resolve_eq_ok_iff.mp hresolve
    exact .converted horigin.nested_eq_nil htarget

variable (hr : replayed.Sound) (hg : Built replayed 0 graph.sketch)

include hr hg

/-- **An assignment upgrades what it has to**, over the version and in one step. -/
theorem upgrades_of_assign {changed : NameSet}
    (hchanged : ∀ name, name ∈ changed ↔ replayed.Affected v name) {field : NodeField}
    {carried : Carried} (horigin : Origin replayed graph v carried)
    (htarget : graph.index.node? field.type.canonical (v + 1) = some field.target)
    {log : List FieldOperation} {assignment : Assignment}
    (h : (replayed.derivation graph).assign old next v field.name carried field =
      .ok (log, assignment)) :
    assignment.Upgrades changed ∧
      ∀ call ∈ assignment.value.nested, replayed.StepsOver v call.1 call.2 := by
  obtain ⟨htype, hcases⟩ := Derivation.cases_of_assign h
  -- a node of the new side is that of the field, so what has one is carried over
  have hkept : graph.index.node? carried.type.canonical (v + 1) = some carried.target →
      assignment = ⟨field.name, field.type, carried.value⟩ := by
    intro hnew
    rw [htype] at hnew
    obtain ⟨-, rfl, -⟩ := hcases.resolve_right fun hdiffers =>
      hdiffers.1 (Option.some.inj (hnew.symm.trans htarget))
    rfl
  cases horigin with
  | created hnew =>
    rw [hkept hnew]
    exact ⟨.created, nofun⟩
  | @converted code context input type target hinput hnew =>
    rw [hkept hnew]
    refine ⟨.converted hinput, fun call hcall => ?_⟩
    have hcall : call ∈ input.nested := hcall
    rw [hinput] at hcall
    cases hcall
  | @old source type target href hold =>
    obtain rfl : type = field.type := htype
    have hshared := hg.shared (Nat.zero_le v) x.lt_size (hr.canonical_mem_names href)
    by_cases haffected : replayed.Affected v field.type.canonical
    · have hdiffers : target ≠ field.target := fun hsame =>
        hshared.mp (hold.trans (htarget.trans (congrArg some hsame.symm)).symm) haffected
      obtain ⟨-, first, steps, hnested, rfl, -⟩ := hcases.resolve_left fun h => hdiffers h.1
      obtain ⟨from', to', hfrom, hto, hnested'⟩ :=
        hg.exists_nested_type hr x.lt_size href haffected
      obtain ⟨rfl, rfl⟩ := Prod.mk.inj (Except.ok.inj (hnested.symm.trans hnested'))
      refine ⟨.upgraded ((hchanged _).mpr haffected), fun call hcall => ?_⟩
      obtain rfl := List.mem_singleton.mp hcall
      obtain ⟨category, hcategory⟩ := Option.isSome_iff_exists.mp (hr.knows_typeRefs href)
      have hnamed := hr.affected_of_canonical href haffected
      exact hg.stepsOver_of_affected (hr.isUpgradable_of_affected hcategory hnamed) x.lt_size
        hnamed hfrom hto
    · have hsame : target = field.target :=
        Option.some.inj (hold.symm.trans ((hshared.mpr haffected).trans htarget))
      obtain ⟨-, rfl, -⟩ := hcases.resolve_right fun hdiffers => hdiffers.1 hsame
      exact ⟨.kept fun hmem => haffected ((hchanged _).mp hmem), nofun⟩

end Crossing

/-! ## Unions -/

/-- What an arm is made of: the nodes of a member on both sides, and a chain between their labels if
they differ. -/
theorem Derivation.arm_eq_ok {source : Derivation} {old next : Node} {member : Member}
    {arm : UnionArm} (h : source.arm old next member = .ok arm) :
    ∃ later first last, next.members.find? (fun later => later.name == member.name) = some later ∧
      source.graph.node member.target = .ok first ∧ source.graph.node later.target = .ok last ∧
      arm.source = first.identity ∧ arm.target = last.identity ∧
      (member.target = later.target ∧ arm.action = .passThrough ∨
        member.target ≠ later.target ∧ ∃ a b steps, first.version = some a ∧
          last.version = some b ∧ source.graph.upgradeChain member.name a b = .ok steps ∧
            arm.action = .upgrade steps) := by
  unfold Derivation.arm at h
  split at h
  · cases h
  · rename_i later hlater
    obtain ⟨first, hfirst, h⟩ := bind_eq_ok.mp h
    obtain ⟨last, hlast, h⟩ := bind_eq_ok.mp h
    refine ⟨later, first, last, hlater, hfirst, hlast, ?_⟩
    split at h
    · obtain ⟨action, haction, h⟩ := bind_eq_ok.mp h
      obtain rfl := Except.ok.inj haction
      obtain rfl := Except.ok.inj h
      exact ⟨rfl, rfl, .inl ⟨‹_›, rfl⟩⟩
    · dsimp only at h
      split at h
      · obtain ⟨steps, hsteps, h⟩ := bind_eq_ok.mp h
        obtain rfl := Except.ok.inj h
        exact ⟨rfl, rfl, .inr ⟨‹_›, _, _, steps, ‹_›, ‹_›, hsteps, rfl⟩⟩
      · cases h

/-- An arm is that of its member. -/
theorem Derivation.arm_named {source : Derivation} {old next : Node} {member : Member}
    {arm : UnionArm} (h : source.arm old next member = .ok arm) :
    arm.discriminant = member.discriminant ∧ arm.member = member.name := by
  unfold Derivation.arm at h
  split at h
  · cases h
  · obtain ⟨first, -, h⟩ := bind_eq_ok.mp h
    obtain ⟨last, -, h⟩ := bind_eq_ok.mp h
    split at h
    · obtain ⟨action, -, h⟩ := bind_eq_ok.mp h
      obtain rfl := Except.ok.inj h
      exact ⟨rfl, rfl⟩
    · dsimp only at h
      split at h
      · obtain ⟨steps, -, h⟩ := bind_eq_ok.mp h
        obtain rfl := Except.ok.inj h
        exact ⟨rfl, rfl⟩
      · cases h

/-- The members of a union are base types. -/
theorem Built.base_of_member {replayed : Replayed} {graph : Graph} (hr : replayed.Sound)
    (hg : Built replayed 0 graph.sketch) {v : Nat} {name : String} {node : Node}
    {members : List Member} (hkind : node.kind = .super members)
    (hnode : graph.nodeAt name v = .ok node) {member : Member} (hmember : member ∈ members) :
    replayed.definition.catalog.category? member.name = some .base := by
  obtain ⟨-, -, hrep⟩ := hg.represents_of_nodeAt hnode
  have hdescribes := hrep.kind
  rw [hkind] at hdescribes
  cases hdescribes with
  | super hentry hmembers =>
    obtain ⟨entry, hmem, hmatches⟩ := exists_left_of_forall₂ hmembers hmember
    rw [hmatches.name]
    exact hr.category?_of_member (List.fst_mem_of_mem_zipIdx hmem)

/-- **What is done with a member** between the two sides of a version: its node stays and is passed
through, or it changes and the node is upgraded to the next one. -/
theorem Built.cases_of_arm {replayed : Replayed} {graph : Graph} (hr : replayed.Sound)
    (hg : Built replayed 0 graph.sketch) {v : Nat} (hv : v + 1 < replayed.chain.size)
    {name : String} {old next : Node} {members : List Member} (hkind : old.kind = .super members)
    (hold : graph.nodeAt name v = .ok old) (hnext : graph.nodeAt name (v + 1) = .ok next)
    {member : Member} (hmember : member ∈ members) {arm : UnionArm}
    (h : (replayed.derivation graph).arm old next member = .ok arm) :
    ∃ first last, graph.nodeAt member.name v = .ok first ∧
      graph.nodeAt member.name (v + 1) = .ok last ∧
      arm.source = first.identity ∧ arm.target = last.identity ∧
      (¬replayed.Affected v member.name ∧ first = last ∧ arm.action = .passThrough ∨
        replayed.Affected v member.name ∧ arm.action = .upgrade [last.identity]) := by
  obtain ⟨later, first, last, hlater, hfirst, hlast, hsource, htarget, haction⟩ :=
    Derivation.arm_eq_ok h
  obtain ⟨later', hlater', -, hid, hid'⟩ := hg.exists_later_member hr hkind hold hnext hmember
  obtain rfl := Option.some.inj (hlater.symm.trans hlater')
  have hname := (hg.mem_of_node? hid).2
  have hshared := hg.shared (Nat.zero_le v) hv hname
  have hfirstNode : graph.nodeAt member.name v = .ok first :=
    Graph.nodeAt_eq_ok_iff.mpr ⟨_, hid, Graph.node_eq_ok_iff.mp hfirst⟩
  have hlastNode : graph.nodeAt member.name (v + 1) = .ok last :=
    Graph.nodeAt_eq_ok_iff.mpr ⟨_, hid', Graph.node_eq_ok_iff.mp hlast⟩
  refine ⟨first, last, hfirstNode, hlastNode, hsource, htarget, ?_⟩
  rcases haction with
    ⟨hsame, haction⟩ | ⟨hdiffers, a, b, steps, hversion, hversion', hchain, haction⟩
  · refine .inl ⟨hshared.mp ?_, ?_, haction⟩
    · exact hid.trans (hid'.trans (congrArg some hsame.symm)).symm
    · exact Except.ok.inj (hfirst.symm.trans (hsame ▸ hlast))
  · have haffected : replayed.Affected v member.name :=
      hg.affected_of_node?_ne hv hname fun hsame =>
        hdiffers (Option.some.inj (hid.symm.trans (hsame.trans hid')))
    obtain ⟨first', last', label, hfirst', hlast', hlabel, hlabel', hchain'⟩ :=
      hg.exists_nested hr hv hname haffected
    obtain rfl := Except.ok.inj (hfirstNode.symm.trans hfirst')
    obtain rfl := Except.ok.inj (hlastNode.symm.trans hlast')
    obtain rfl := Option.some.inj (hversion.symm.trans hlabel)
    obtain rfl := Option.some.inj (hversion'.symm.trans hlabel')
    obtain rfl : steps = [last.identity] := Except.ok.inj (hchain.symm.trans hchain')
    exact .inr ⟨haffected, haction⟩

/-- **An arm upgrades a member over the version**, in one step. -/
theorem Built.stepsOver_of_arm {replayed : Replayed} {graph : Graph} (hr : replayed.Sound)
    (hg : Built replayed 0 graph.sketch) {v : Nat} (hv : v + 1 < replayed.chain.size)
    {name : String} {old next : Node} {members : List Member} (hkind : old.kind = .super members)
    (hold : graph.nodeAt name v = .ok old) (hnext : graph.nodeAt name (v + 1) = .ok next)
    {member : Member} (hmember : member ∈ members) {arm : UnionArm}
    (h : (replayed.derivation graph).arm old next member = .ok arm) :
    ∀ call ∈ arm.nested, replayed.StepsOver v call.1 call.2 := by
  obtain ⟨first, last, hfirst, hlast, hsource, -, hcases⟩ :=
    hg.cases_of_arm hr hv hkind hold hnext hmember h
  rcases hcases with ⟨-, -, haction⟩ | ⟨haffected, haction⟩
  · rw [UnionArm.nested, haction]
    exact nofun
  · rw [UnionArm.nested, haction, hsource]
    intro call hcall
    obtain rfl := List.mem_singleton.mp hcall
    have htype : replayed.IsUpgradable member.name := .inl (hg.base_of_member hr hkind hold hmember)
    exact hg.stepsOver_of_affected htype hv haffected hfirst hlast

/-! ## Plans -/

namespace Compilation

variable {c : Compilation} {path : UpgradePath}

/-- What is behind a union path: the arms of a union between the two sides of a version. -/
theorem exists_union (hc : c.Sound) (hpath : path ∈ c.plan.paths) {arms : List UnionArm}
    (hbody : path.body = .union arms) :
    ∃ version old next members, path.source = ⟨old.name, some version⟩ ∧
      version + 1 < c.schema.chain.size ∧ old.kind = .super members ∧
      c.graph.nodeAt old.name version = .ok old ∧
      c.graph.nodeAt old.name (version + 1) = .ok next ∧
      List.Forall₂ (fun member arm => (c.schema.derivation c.graph).arm old next member = .ok arm)
        members arms := by
  obtain ⟨version, old, next, -, hsource, -, -, hv, hold, hnext, hbodies⟩ := exists_sides hc hpath
  rw [hbody] at hbodies
  rcases hbodies with ⟨fields, -, hrecord⟩ | ⟨members, hkind, hunion⟩
  · obtain ⟨_, _, _, _, -, -, -, hsame⟩ := Derivation.exists_of_record hrecord
    cases hsame
  · obtain ⟨arms', harms, h⟩ := bind_eq_ok.mp hunion
    obtain rfl := UpgradeBody.union.inj (Except.ok.inj h)
    rw [Node.members, hkind] at harms
    exact ⟨version, old, next, members, hsource, hv, hkind, hold, hnext, mapM_eq_ok_iff.mp harms⟩

/-- **An upgrade over a version has exactly one path** in the plan. -/
theorem count_of_stepsOver (hc : c.Sound) {version : Nat} {first : Identity}
    {steps : List Identity} (h : c.schema.StepsOver version first steps) :
    first.version = some version ∧ ∃ step, steps = [step] ∧
      (c.plan.paths.map fun called => (called.source, called.target)).count (first, step) = 1 := by
  obtain ⟨name, next, rfl, rfl, htype, hv, haffected, hnext⟩ := h
  obtain ⟨called, hcalled, rfl, hsource⟩ := exists_path_of_affected hc htype hv haffected
  obtain ⟨start, last, hconnects⟩ := exists_connects hc hcalled
  obtain rfl := Option.some.inj (Identity.mk.inj (hconnects.source.symm.trans hsource)).2
  obtain rfl := hconnects.follows.unique hnext
  have hdistinct : (c.plan.paths.map fun called => (called.source, called.target)).Nodup :=
    List.pairwise_map.mpr ((pairwise_paths hc).imp fun hprecedes hsame =>
      hprecedes.ne (congrArg Prod.fst hsame))
  refine ⟨rfl, _, rfl, List.count_eq_one_of_mem hdistinct (List.mem_map.mpr ⟨called, hcalled, ?_⟩)⟩
  rw [hconnects.source, hconnects.target]

/-- **A plan is closed under nested upgrades.** Every path starts at the label of its type at a
version. Every upgrade that it asks for starts at a label of that version too and is one step, for
which the plan has exactly one path. In a record, the upgraded values are the old ones that are not
converted and whose types change behind the version, each inside the modifier of its type. -/
theorem nested_closed {config : Config} {workers : Nat} (h : config.compile workers = .ok c)
    (hpath : path ∈ c.plan.paths) :
    ∃ version changed, path.source.version = some version ∧
      c.graph.changedAt? version = some changed ∧
      (∀ first steps, (first, steps) ∈ path.body.nested → first.version = some version ∧
        ∃ step, steps = [step] ∧
          (c.plan.paths.map fun called => (called.source, called.target)).count (first, step) =
            1) ∧
      ∀ operations assignments, path.body = .record operations assignments →
        ∀ assignment ∈ assignments, assignment.Upgrades changed := by
  have hc := sound_of_compile h
  cases hbody : path.body with
  | record operations assignments =>
    obtain ⟨version, old, next, -, hsource, -, ⟨x⟩, hrecord, hlabel, -⟩ :=
      exists_crossing hc hpath hbody
    obtain ⟨changed, hget, hchanged⟩ := exists_changedAt hc (Nat.lt_of_succ_lt x.lt_size)
    obtain ⟨log, carried, outs, hreplay, -, rfl, hassigned⟩ :=
      x.exists_assigned hc.schema hc.graph hlabel hrecord
    have hboth : ∀ assignment ∈ outs.map Prod.snd, assignment.Upgrades changed ∧
        ∀ call ∈ assignment.value.nested, c.schema.StepsOver version call.1 call.2 := by
      intro assignment hassignment
      obtain ⟨out, hout, rfl⟩ := List.mem_map.mp hassignment
      obtain ⟨field, -, value, hmem, -, htarget, hassign⟩ := exists_left_of_forall₂ hassigned hout
      exact x.upgrades_of_assign hc.schema hc.graph hchanged (x.origin_replay hreplay _ hmem)
        htarget hassign
    refine ⟨version, changed, congrArg Identity.version hsource, hget, ?_, ?_⟩
    · intro first steps hcall
      obtain ⟨assignment, hassignment, hcall⟩ := List.mem_flatMap.mp hcall
      exact count_of_stepsOver hc ((hboth assignment hassignment).2 _ hcall)
    · intro operations' assignments' hsame assignment hassignment
      obtain ⟨-, rfl⟩ := UpgradeBody.record.inj hsame
      exact (hboth assignment hassignment).1
  | union arms =>
    obtain ⟨version, old, next, members, hsource, hv, hkind, hold, hnext, harms⟩ :=
      exists_union hc hpath hbody
    obtain ⟨changed, hget, -⟩ := exists_changedAt hc (Nat.lt_of_succ_lt hv)
    refine ⟨version, changed, congrArg Identity.version hsource, hget, ?_, nofun⟩
    intro first steps hcall
    obtain ⟨arm, harm, hcall⟩ := List.mem_flatMap.mp hcall
    obtain ⟨member, hmember, hderived⟩ := exists_left_of_forall₂ harms harm
    exact count_of_stepsOver hc
      (hc.graph.stepsOver_of_arm hc.schema hv hkind hold hnext hmember hderived _ hcall)

/-- The upgrade of `B` upgrades an array of records `A`, for which there is one path. -/
theorem nested_closed_sample : ∃ c changed, Config.sample.compile 1 = .ok c ∧
    UpgradePath.sample ∈ c.plan.paths ∧ c.graph.changedAt? 0 = some changed ∧
      TypeRef.canonical ⟨"A", .array⟩ ∈ changed ∧
        (c.plan.paths.map fun called => (called.source, called.target)).count
          (⟨"A", some 0⟩, ⟨"A", some 1⟩) = 1 := by
  obtain ⟨c, -, hc, -, -, -, -, -, hpath⟩ := Config.exists_compile_sample
  obtain ⟨version, changed, hsource, hchanged, hnested, hupgrades⟩ := nested_closed hc hpath
  obtain rfl : 0 = version := Option.some.inj hsource
  have hcall : (⟨"A", some 0⟩, [⟨"A", some 1⟩]) ∈ UpgradePath.sample.body.nested := by decide
  obtain ⟨-, step, hstep, hcount⟩ := hnested _ _ hcall
  obtain rfl := List.singleton_inj.mp hstep
  have hlast := hupgrades _ _ rfl _ (List.mem_cons_of_mem _ List.mem_cons_self)
  refine ⟨c, changed, hc, hpath, hchanged, ?_, hcount⟩
  cases hlast with
  | upgraded h => exact h

end Compilation

end SchemaEvolution

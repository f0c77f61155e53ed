import SchemaEvolution.Proofs.Labels

/-!
# Deriving upgrades never fails

The upgrade of a record runs the changes of a version a second time, on expressions in the place of
types. The expressions stay in step with the layout, so whatever the first run accepted the second
one accepts as well, and each value that has to be upgraded is of a type with a next node.

## Main definitions

* `Replayed.derivation`: what the upgrades of a schema are derived from
* `Crossing`: a base type on the two sides of a version
* `Carries`: a carried value has the type of the layout and a node of one of the two sides

## Main results

* `Built.exists_nested`: an affected type has an upgrade of one step
* `Crossing.exists_replay`: the changes run on carried values as they run on the layout
* `Crossing.exists_record`, `Built.exists_arm`, `Built.exists_union`: records and unions have
  upgrades
* `Built.exists_derive`: a graph has an upgrade plan
-/

namespace SchemaEvolution

/-- What the upgrades of a schema are derived from. -/
def Replayed.derivation (replayed : Replayed) (graph : Graph) : Derivation :=
  ⟨replayed.chain, replayed.history, graph, CodeRef.registry replayed.chain⟩

/-! ## Code -/

theorem CodeRef.mem_registry_iff {chain : Chain} {code : CodeRef} :
    code ∈ registry chain ↔ ∃ version ∈ chain.versions, ∃ step ∈ version.transformations,
      step.change.code? = some code := by
  refine (ListsFirstUses.foldl _).mem_iff.trans ?_
  simp only [List.mem_flatMap, List.mem_filterMap]

namespace Derivation

variable {source : Derivation} {code : CodeRef} {id : RefId}

/-- **The id of code** is its place in the registry. -/
theorem reference_eq_ok_iff :
    source.reference code = .ok id ↔ source.references.idxOf? code = some id := by
  unfold reference
  cases source.references.idxOf? code with
  | none => exact ⟨nofun, nofun⟩
  | some found =>
    exact ⟨fun h => congrArg some (Except.ok.inj h), fun h => congrArg _ (Option.some.inj h)⟩

theorem exists_reference (h : code ∈ source.references) : ∃ id, source.reference code = .ok id := by
  obtain ⟨id, hid⟩ := Option.isSome_iff_exists.mp (List.isSome_idxOf?.mpr h)
  exact ⟨id, reference_eq_ok_iff.mpr hid⟩

/-- A place that is found is the place of the code. -/
theorem getElem?_of_reference (h : source.reference code = .ok id) :
    source.references[id]? = some code := by
  obtain ⟨hlt, hcode, -⟩ := List.idxOf?_eq_some_iff.mp (reference_eq_ok_iff.mp h)
  exact List.getElem?_eq_some_iff.mpr ⟨hlt, hcode⟩

/-- The fields that a change reads are found when the old node has them. -/
theorem exists_context {old : Node} {version : String} {names : List String}
    (h : ∀ name ∈ names, ∃ field ∈ old.fields, field.name = name) :
    ∃ context, Derivation.context old version names = .ok context := by
  cases names with
  | nil => exact ⟨none, rfl⟩
  | cons first rest =>
    refine Exists.elim (exists_mapM_eq_ok fun name hname => ?_) fun fields hfields =>
      ⟨some fields, bind_eq_ok.mpr ⟨fields, hfields, rfl⟩⟩
    obtain ⟨field, hfield, hsame⟩ := h name hname
    have hsome : (old.fields.find? fun field => field.name == name).isSome = true :=
      List.find?_isSome.mpr ⟨field, hfield, beq_iff_eq.mpr hsame⟩
    obtain ⟨found, hfound⟩ := Option.isSome_iff_exists.mp hsome
    exact ⟨_, by rw [hfound]⟩

/-- A change is resolved when its code is registered, the fields that it reads are there, and its
type has a node at the version. -/
theorem resolve_eq_ok_iff {old : Node} {version : Nat} {type : TypeRef} {names : List String}
    {out : (TypeRef × NodeId) × (RefId × CodeContext)} :
    source.resolve old version type code names = .ok out ↔ out.1.1 = type ∧
      source.reference code = .ok out.2.1 ∧
        Derivation.context old (source.chain.nameOf version) names = .ok out.2.2 ∧
          source.graph.index.node? type.canonical version = some out.1.2 := by
  obtain ⟨⟨type', target⟩, id, context⟩ := out
  simp only [resolve, bind_eq_ok, Index.resolve_eq_ok_iff]
  constructor
  · rintro ⟨id', hid, context', hcontext, target', htarget, h⟩
    obtain ⟨⟨rfl, rfl⟩, rfl, rfl⟩ := by simpa [pure, Except.pure] using h
    exact ⟨rfl, hid, hcontext, htarget⟩
  · rintro ⟨rfl, hid, hcontext, htarget⟩
    exact ⟨id, hid, context, hcontext, target, htarget, rfl⟩

/-- **One step of a replay**: the step is resolved and made, and the rest is replayed on what it
leaves. -/
theorem replay_cons_eq_ok {old : Node} {version : Nat} {step : Step} {rest : List Step}
    {carried out : OrderedMap Carried} {operations : List FieldOperation}
    (h : source.replay old version (step :: rest) carried = .ok (operations, out)) :
    ∃ change middle later, source.resolveChange old version step.change = .ok change ∧
      change.apply start rework ⟨step.type, source.chain.nameOf version⟩ carried = .ok middle ∧
        source.replay old version rest middle = .ok (later, out) ∧
          operations = operation change :: later := by
  obtain ⟨change, hchange, h⟩ := bind_eq_ok.mp h
  obtain ⟨middle, happly, h⟩ := bind_eq_ok.mp h
  obtain ⟨⟨later, last⟩, hlater, h⟩ := bind_eq_ok.mp h
  obtain ⟨rfl, rfl⟩ := Prod.mk.inj (Except.ok.inj h)
  exact ⟨change, middle, later, hchange, happly, hlater, rfl⟩

end Derivation

/-! ## Nested upgrades -/

namespace Built

variable {replayed : Replayed} {graph : Graph} {v : Nat} {name : String}
  (hr : replayed.Sound) (hg : Built replayed 0 graph.sketch)

include hg

/-- A name whose nodes at two versions in a row differ is affected. -/
theorem affected_of_node?_ne (hv : v + 1 < replayed.chain.size)
    (hname : name ∈ replayed.blueprint.names)
    (hne : graph.index.node? name v ≠ graph.index.node? name (v + 1)) :
    replayed.Affected v name := by
  by_contra hnot
  exact hne ((hg.shared (Nat.zero_le v) hv hname).mpr hnot)

include hr

/-- **An affected type has an upgrade of one step**: its node is labelled with the version itself,
and the next node is the only one on the way. -/
theorem exists_nested (hv : v + 1 < replayed.chain.size)
    (hname : name ∈ replayed.blueprint.names) (haffected : replayed.Affected v name) :
    ∃ first last label, graph.nodeAt name v = .ok first ∧ graph.nodeAt name (v + 1) = .ok last ∧
      first.version = some v ∧ last.version = some label ∧
        graph.upgradeChain name v label = .ok [last.identity] := by
  have hevolves : replayed.blueprint.evolves name = true :=
    Bool.of_not_eq_false fun hstays => hr.not_affected_of_not_evolves hstays haffected
  obtain ⟨first, own, hfirst, hown, hsame⟩ :=
    hg.exists_nodeAt_labelAt (Nat.lt_of_succ_lt hv) hname hevolves
  obtain ⟨last, label, hlast, hlabel, hsame'⟩ := hg.exists_nodeAt_labelAt hv hname hevolves
  obtain rfl := hown.unique (.of_affected (Nat.lt_of_succ_lt hv) haffected)
  refine ⟨first, last, label, hfirst, hlast, congrArg Identity.version hsame,
    congrArg Identity.version hsame', ?_⟩
  rw [hg.upgradeChain_of_labelAt hname hevolves hlabel (Nat.le_refl label),
    upgradeChain_of_le (Nat.le_refl label), hsame']
  rfl

/-- The nested upgrade of a field type that is affected is the one step of the type that it
wraps. -/
theorem exists_nested_type (hv : v + 1 < replayed.chain.size) {ref : TypeRef}
    (href : ref ∈ replayed.typeRefs) (haffected : replayed.Affected v ref.canonical) :
    ∃ first last, graph.nodeAt ref.name v = .ok first ∧
      graph.nodeAt ref.name (v + 1) = .ok last ∧
        (replayed.derivation graph).nested ref v (v + 1) =
          .ok (first.identity, [last.identity]) := by
  obtain ⟨first, last, label, hfirst, hlast, hversion, hlabel, hchain⟩ :=
    hg.exists_nested hr hv (Replayed.mem_names_of_knows (hr.knows_typeRefs href))
      (hr.affected_of_canonical href haffected)
  refine ⟨first, last, hfirst, hlast, bind_eq_ok.mpr ⟨first, hfirst,
    bind_eq_ok.mpr ⟨last, hlast, ?_⟩⟩⟩
  rw [hversion, hlabel]
  exact bind_eq_ok.mpr ⟨_, hchain, rfl⟩

end Built

/-! ## Records -/

/-- **A base type on the two sides of a version**: its nodes `old` and `next` with their layouts. -/
structure Crossing (replayed : Replayed) (graph : Graph) (v : Nat) (old next : Node) where
  version : Version
  before : Layout
  after : Layout
  lt_size : v + 1 < replayed.chain.size
  oldNode : graph.nodeAt old.name v = .ok old
  nextNode : graph.nodeAt old.name (v + 1) = .ok next
  getVersion : replayed.chain.get? (v + 1) = some version
  beforeLayout : replayed.history.layout? v old.name = some before
  afterLayout : replayed.history.layout? (v + 1) old.name = some after
  oldFields : List.Forall₂ (NodeField.Matches (graph.index.node? · v)) before.entries old.fields
  nextFields : List.Forall₂ (NodeField.Matches (graph.index.node? · (v + 1))) after.entries
    next.fields

namespace Crossing

variable {replayed : Replayed} {graph : Graph} {v : Nat} {old next : Node}

/-- The transformations of the version that target the type. -/
def steps (x : Crossing replayed graph v old next) : List Step :=
  x.version.transformations.filter fun step => step.type == old.name

theorem exists_crossing (hg : Built replayed 0 graph.sketch)
    (hv : v + 1 < replayed.chain.size)
    (hbase : replayed.definition.catalog.category? old.name = some .base)
    (hold : graph.nodeAt old.name v = .ok old) (hnext : graph.nodeAt old.name (v + 1) = .ok next) :
    Nonempty (Crossing replayed graph v old next) := by
  obtain ⟨-, -, hrep⟩ := hg.represents_of_nodeAt hold
  obtain ⟨-, -, hrep'⟩ := hg.represents_of_nodeAt hnext
  obtain ⟨before, fields, hbefore, hkind, hfields⟩ :=
    hrep.kind.exists_base (Replayed.entry_declared_iff.mpr hbase)
  obtain ⟨after, fields', hafter, hkind', hfields'⟩ :=
    hrep'.kind.exists_base (Replayed.entry_declared_iff.mpr hbase)
  have hversion : replayed.chain.get? (v + 1) = some _ := List.getElem?_eq_getElem hv
  refine ⟨⟨_, before, after, hv, hold, hnext, hversion, hbefore, hafter, ?_, ?_⟩⟩
  · rwa [Node.fields, hkind]
  · rwa [Node.fields, hkind']

variable (x : Crossing replayed graph v old next)

theorem nameOf_eq : replayed.chain.nameOf (v + 1) = x.version.name := by
  rw [Chain.nameOf, x.getVersion]
  rfl

theorem exists_field {field : String} (h : field ∈ x.before) :
    ∃ found ∈ old.fields, found.name = field := by
  obtain ⟨entry, hentry, rfl⟩ := List.mem_map.mp h
  obtain ⟨found, hfound, hmatches⟩ := exists_right_of_forall₂ x.oldFields hentry
  exact ⟨found, hfound, hmatches.name⟩

variable (hr : replayed.Sound)

include hr

theorem run_steps : x.before.run x.version.name x.steps = .ok x.after := by
  obtain ⟨stage, hstage, -⟩ := History.layout?_eq_some_iff.mp x.afterLayout
  obtain ⟨after, hafter, hrun⟩ := hr.layout?_succ hstage x.getVersion x.beforeLayout
  obtain rfl := Option.some.inj (x.afterLayout.symm.trans hafter)
  rw [hr.transformations_stage hstage x.getVersion] at hrun
  exact hrun

/-- What the replay of the version has checked of each transformation. -/
theorem checked {step : Step} (hstep : step ∈ x.steps) :
    (∀ field ∈ step.change.context, field ∈ x.before) ∧
      (∀ ref, step.change.introduced? = some ref → ref ∈ replayed.typeRefs) ∧
        ∀ code, step.change.code? = some code → code ∈ CodeRef.registry replayed.chain := by
  obtain ⟨hmem, htype⟩ := List.mem_filter.mp hstep
  have hbefore : replayed.history.layout? v step.type = some x.before := by
    rw [eq_of_beq htype]
    exact x.beforeLayout
  obtain ⟨stage, hstage⟩ := hr.exists_stage x.lt_size
  have hstep' : step ∈ stage.transformations := by
    rwa [hr.transformations_stage hstage x.getVersion]
  refine ⟨hr.mem_layout_of_context hstage hstep' hbefore,
    fun ref href => hr.mem_typeRefs_of_introduced hstage hstep' href, fun code hcode => ?_⟩
  exact CodeRef.mem_registry_iff.mpr ⟨_, List.mem_of_getElem? x.getVersion, step, hmem, hcode⟩

/-! ### The changes on carried values -/

omit hr in
include x in
/-- The values of the old instance, one for each field of the old node. -/
theorem entries_initial : (Derivation.initial old).entries = old.fields.map fun field =>
    (field.name, ⟨.oldField field.name, field.type, field.target⟩) := by
  refine OrderedMap.entries_ofList ?_
  have hnames : x.before.entries.map Prod.fst = old.fields.map NodeField.name :=
    map_eq_map_of_forall₂ x.oldFields fun _ _ hfield => hfield.name.symm
  rw [List.map_map]
  exact hnames ▸ x.before.distinct

theorem exists_resolveChange (hg : Built replayed 0 graph.sketch) {step : Step}
    (hstep : step ∈ x.steps) :
    ∃ change, (replayed.derivation graph).resolveChange old (v + 1) step.change = .ok change := by
  obtain ⟨hcontext, hintroduced, hcode⟩ := x.checked hr hstep
  refine FieldChange.exists_traverse fun type code htype hcode' => ?_
  obtain ⟨id, hid⟩ : ∃ id, (replayed.derivation graph).reference code = .ok id :=
    Derivation.exists_reference (hcode code hcode')
  obtain ⟨context, hctx⟩ : ∃ context, Derivation.context old (replayed.chain.nameOf (v + 1))
      step.change.context = .ok context :=
    Derivation.exists_context fun field hfield => x.exists_field (hcontext field hfield)
  obtain ⟨node, -, htarget, -⟩ :=
    hg.exists_nodeAt x.lt_size (hr.canonical_mem_names (hintroduced type htype))
  exact ⟨((type, node.id), (id, context)),
    Derivation.resolve_eq_ok_iff.mpr ⟨rfl, hid, hctx, htarget⟩⟩

end Crossing

/-- **A carried value is in step with the layout**: it is of the type there, and its node is that of
the new side, or that of the old side for a type of the schema. -/
structure Carries (replayed : Replayed) (graph : Graph) (v : Nat) (ref : TypeRef)
    (carried : Carried) : Prop where
  type : carried.type = ref
  target : graph.index.node? ref.canonical (v + 1) = some carried.target ∨
    ref ∈ replayed.typeRefs ∧ graph.index.node? ref.canonical v = some carried.target

/-- A value that a change brings in has a node of the new side. -/
theorem carries_of_resolve {replayed : Replayed} {graph : Graph} {v : Nat} {old : Node}
    {type : TypeRef} {code : CodeRef} {names : List String} {type' : TypeRef × NodeId}
    {code' : RefId × CodeContext} {value : ValueExpr}
    (h : (replayed.derivation graph).resolve old (v + 1) type code names = .ok (type', code')) :
    Carries replayed graph v type ⟨value, type'.1, type'.2⟩ := by
  obtain ⟨htype, -, -, htarget⟩ := Derivation.resolve_eq_ok_iff.mp h
  exact ⟨htype, .inl htarget⟩

namespace Crossing

variable {replayed : Replayed} {graph : Graph} {v : Nat} {old next : Node}
  (x : Crossing replayed graph v old next) (hr : replayed.Sound)
  (hg : Built replayed 0 graph.sketch)

include x hr hg

/-- **The changes run on carried values as they run on the layout.** -/
theorem exists_replay {steps : List Step} (hsteps : ∀ step ∈ steps, step ∈ x.steps)
    {layout out : Layout} (hrun : layout.run x.version.name steps = .ok out)
    {carried : OrderedMap Carried}
    (h : OrderedMap.Related (Carries replayed graph v) layout carried) :
    ∃ operations carried', (replayed.derivation graph).replay old (v + 1) steps carried =
      .ok (operations, carried') ∧ OrderedMap.Related (Carries replayed graph v) out carried' := by
  -- one change at a time: what `layout` accepts, `carried` accepts, and they stay in step
  induction steps generalizing layout carried with
  | nil =>
    obtain rfl := Except.ok.inj hrun
    exact ⟨[], carried, rfl, h⟩
  | cons step rest ih =>
    obtain ⟨hstep, hrest⟩ := List.forall_mem_cons.mp hsteps
    obtain ⟨middle, happly, hrun⟩ := bind_eq_ok.mp hrun
    obtain ⟨change, hchange⟩ := x.exists_resolveChange hr hg hstep
    have hagree : AgreeUpTo (OrderedMap.Related (Carries replayed graph v))
        (layout.apply ⟨step.type, x.version.name⟩ step.change)
        (change.apply Derivation.start Derivation.rework ⟨step.type, x.version.name⟩ carried) := by
      rw [Layout.apply_eq]
      exact FieldChange.apply_related
        (fun _ _ _ _ _ hresolve => carries_of_resolve hresolve)
        (fun _ _ _ _ _ hresolve _ _ _ => carries_of_resolve hresolve) hchange h _
    obtain ⟨carried', hcarried, hrelated⟩ := hagree.exists_right happly
    obtain ⟨operations, last, hreplay, hlast⟩ := ih hrest hrun hrelated
    refine ⟨_, last, bind_eq_ok.mpr ⟨change, hchange, bind_eq_ok.mpr ⟨carried', ?_,
      bind_eq_ok.mpr ⟨_, hreplay, rfl⟩⟩⟩, hlast⟩
    have hname : (replayed.derivation graph).chain.nameOf (v + 1) = x.version.name := x.nameOf_eq
    rw [hname]
    exact hcarried

/-- **A carried value has its place in the new instance**: as it is, or upgraded by one step. -/
theorem exists_assign {entry : String × TypeRef} {carried : Carried} {declared : NodeField}
    (hcarried : Carries replayed graph v entry.2 carried)
    (hdeclared : NodeField.Matches (graph.index.node? · (v + 1)) entry declared) :
    ∃ out, (replayed.derivation graph).assign old next v entry.1 carried declared =
      .ok out := by
  have htype : ¬(carried.type != declared.type) = true := by
    rw [hcarried.type, hdeclared.type]
    simp
  unfold Derivation.assign
  rw [if_neg htype]
  split
  · exact ⟨_, rfl⟩
  · rename_i hdiffers
    have hold := hcarried.target.resolve_left fun hnew =>
      hdiffers (Option.some.inj (hnew.symm.trans hdeclared.target))
    have haffected := hg.affected_of_node?_ne x.lt_size (hr.canonical_mem_names hold.1)
      (by rw [hold.2, hdeclared.target]; exact fun h => hdiffers (Option.some.inj h))
    obtain ⟨first, last, -, -, hnested⟩ := hg.exists_nested_type hr x.lt_size hold.1 haffected
    rw [← hcarried.type] at hnested
    exact ⟨_, bind_eq_ok.mpr ⟨_, hnested, rfl⟩⟩

theorem exists_assignAll {layout : List (String × TypeRef)} {carried : List (String × Carried)}
    {declared : List NodeField}
    (hcarried : List.Forall₂ (fun entry value => entry.1 = value.1 ∧
      Carries replayed graph v entry.2 value.2) layout carried)
    (hdeclared : List.Forall₂ (NodeField.Matches (graph.index.node? · (v + 1))) layout declared) :
    ∃ out, (replayed.derivation graph).assignAll old next v carried declared = .ok out := by
  induction hcarried generalizing declared with
  | nil =>
    cases hdeclared
    exact ⟨_, rfl⟩
  | @cons entry value layout carried hfirst _ ih =>
    cases hdeclared with
    | cons hmatches hrest =>
      obtain ⟨out, hout⟩ := x.exists_assign hr hg hfirst.2 hmatches
      obtain ⟨later, hlater⟩ := ih hrest
      rw [hfirst.1] at hout
      exact ⟨_, bind_eq_ok.mpr ⟨out, hout, bind_eq_ok.mpr ⟨later, hlater, rfl⟩⟩⟩

omit hg in
theorem transformations_snapshot : ((replayed.history.snapshot? (v + 1) old.name).map
    Snapshot.transformations).getD [] = x.steps := by
  obtain ⟨stage, hstage, hget⟩ := History.layout?_eq_some_iff.mp x.afterLayout
  have hsnapshot : replayed.history.snapshot? (v + 1) old.name =
      some (replayed.history.snapshotOf (v + 1) stage old.name x.after) := by
    simp [History.snapshot?, hstage, hget]
  rw [hsnapshot, Option.map_some, Option.getD_some, steps, History.snapshotOf,
    hr.transformations_stage hstage x.getVersion]

omit hr hg in
/-- The old values are in step with the old layout. -/
theorem initial_carries :
    OrderedMap.Related (Carries replayed graph v) x.before (Derivation.initial old) := by
  rw [OrderedMap.Related, x.entries_initial, List.forall₂_map_right_iff]
  refine ((List.forall₂_and_left _ _).mpr ⟨fun _ h => h, x.oldFields⟩).imp ?_
  rintro entry field ⟨hentry, hfield⟩
  refine ⟨hfield.name.symm, hfield.type, .inr ⟨?_, hfield.target⟩⟩
  exact Replayed.mem_typeRefs_of_layout x.beforeLayout (List.mem_map_of_mem hentry)

/-- **A record has an upgrade.** -/
theorem exists_record (hversion : old.version = some v) :
    ∃ body, (replayed.derivation graph).record old next = .ok body := by
  -- the changes run through, and each new field gets its value from what they leave
  obtain ⟨operations, carried, hreplay, hrelated⟩ :=
    x.exists_replay hr hg (fun _ h => h) (x.run_steps hr) x.initial_carries
  obtain ⟨out, hout⟩ := x.exists_assignAll hr hg hrelated x.nextFields
  have hfields : next.fields.map NodeField.name = carried.keys := by
    rw [← hrelated.keys_eq]
    exact (map_eq_map_of_forall₂ x.nextFields fun _ _ hfield => hfield.name.symm).symm
  unfold Derivation.record
  rw [hversion]
  dsimp only [Option.getD_some, Replayed.derivation]
  rw [x.transformations_snapshot hr]
  refine ⟨.record (operations ++ out.1) out.2, bind_eq_ok.mpr ⟨(operations, carried), hreplay, ?_⟩⟩
  dsimp only
  rw [if_neg (by simp [hfields])]
  exact bind_eq_ok.mpr ⟨out, hout, rfl⟩

end Crossing

/-! ## Unions and plans -/

/-- What a path leads from and to, and that its body is the upgrade of a record or a union. -/
theorem Derivation.path_eq_ok {source : Derivation} {old : Node} {path : UpgradePath}
    (h : source.path old = .ok path) : ∃ next, source.graph.successor old = .ok (some next) ∧
      path.type = old.name ∧ path.source = old.identity ∧ path.target = next.identity ∧
        ((∃ fields, old.kind = .base fields ∧ source.record old next = .ok path.body) ∨
          ∃ members, old.kind = .super members ∧ source.union old next = .ok path.body) := by
  obtain ⟨found, hfound, h⟩ := bind_eq_ok.mp h
  cases found with
  | none => cases h
  | some next =>
    refine ⟨next, hfound, ?_⟩
    dsimp only at h
    split at h
    · rename_i fields hkind
      obtain ⟨body, hbody, h⟩ := bind_eq_ok.mp h
      obtain rfl := Except.ok.inj h
      exact ⟨rfl, rfl, rfl, .inl ⟨fields, hkind, hbody⟩⟩
    · rename_i members hkind
      obtain ⟨body, hbody, h⟩ := bind_eq_ok.mp h
      obtain rfl := Except.ok.inj h
      exact ⟨rfl, rfl, rfl, .inr ⟨members, hkind, hbody⟩⟩
    · cases h

/-- Only nodes with a label before the current version need a path. -/
theorem Derivation.exists_label_of_needsPath {current : Nat} {node : Node}
    (h : needsPath current node = true) : ∃ label, node.version = some label ∧ label < current := by
  unfold needsPath at h
  split at h
  · cases hversion : node.version with
    | none => simp [hversion] at h
    | some label => exact ⟨label, rfl, by simpa [hversion] using h⟩
  · cases hversion : node.version with
    | none => simp [hversion] at h
    | some label => exact ⟨label, rfl, by simpa [hversion] using h⟩
  · cases h

/-- Every path of a plan is that of a node in the graph that needs one. -/
theorem UpgradePlan.exists_node_of_mem {workers : Nat} {chain : Chain} {history : History}
    {graph : Graph} {plan : UpgradePlan}
    (h : UpgradePlan.derive workers chain history graph = .ok plan) :
    plan.references = CodeRef.registry chain ∧ ∀ path ∈ plan.paths, ∃ node : Node,
      ∃ id : NodeId, graph.nodes[id]? = some node ∧
        Derivation.needsPath graph.current node = true ∧
          Derivation.path ⟨chain, history, graph, CodeRef.registry chain⟩ node = .ok path := by
  rw [derive_eq] at h
  obtain ⟨paths, hpaths, h⟩ := bind_eq_ok.mp h
  obtain rfl := Except.ok.inj h
  refine ⟨rfl, fun path hpath => ?_⟩
  obtain ⟨node, hnode, hderived⟩ := exists_left_of_forall₂ (mapM_eq_ok_iff.mp hpaths) hpath
  obtain ⟨hmem, hneeds⟩ := List.mem_filter.mp (List.mem_mergeSort.mp hnode)
  obtain ⟨id, hid⟩ := List.mem_iff_getElem?.mp hmem
  rw [Array.getElem?_toList] at hid
  exact ⟨node, id, hid, hneeds, hderived⟩

namespace Built

variable {replayed : Replayed} {graph : Graph} {v : Nat} {name : String} {old next : Node}
  (hr : replayed.Sound) (hg : Built replayed 0 graph.sketch)

include hr hg

/-- **A member of a union has an arm**: its node is the same on both sides, or it is upgraded by one
step. -/
theorem exists_arm (hv : v + 1 < replayed.chain.size) {members : List Member}
    (hkind : old.kind = .super members) (hold : graph.nodeAt name v = .ok old)
    (hnext : graph.nodeAt name (v + 1) = .ok next) {member : Member} (hmember : member ∈ members) :
    ∃ arm, (replayed.derivation graph).arm old next member = .ok arm := by
  obtain ⟨later, hlater, -, htarget, htarget'⟩ :=
    hg.exists_later_member hr hkind hold hnext hmember
  have hmemberName := (hg.mem_of_node? htarget).2
  obtain ⟨first, hnodeAt, hfirst, hget, -⟩ := hg.exists_nodeAt (Nat.lt_of_succ_lt hv) hmemberName
  obtain ⟨last, hlast, hid, hget', -⟩ := hg.exists_nodeAt hv hmemberName
  rw [Option.some.inj (hfirst.symm.trans htarget)] at hget
  rw [Option.some.inj (hid.symm.trans htarget')] at hget'
  unfold Derivation.arm
  rw [hlater]
  dsimp only [Replayed.derivation]
  rw [Graph.node_eq_ok_iff.mpr hget, ok_bind, Graph.node_eq_ok_iff.mpr hget', ok_bind]
  split
  · exact ⟨_, rfl⟩
  · rename_i hdiffers
    have haffected := hg.affected_of_node?_ne hv hmemberName
      (by rw [htarget, htarget']; exact fun h => hdiffers (Option.some.inj h))
    obtain ⟨first', last', label, hfirst', hlast', hversion, hlabel, hchain⟩ :=
      hg.exists_nested hr hv hmemberName haffected
    obtain rfl := Except.ok.inj (hnodeAt.symm.trans hfirst')
    obtain rfl := Except.ok.inj (hlast.symm.trans hlast')
    rw [hversion, hlabel]
    dsimp only
    rw [hchain]
    exact ⟨_, rfl⟩

/-- **A union has an upgrade.** -/
theorem exists_union (hv : v + 1 < replayed.chain.size) {members : List Member}
    (hkind : old.kind = .super members) (hold : graph.nodeAt name v = .ok old)
    (hnext : graph.nodeAt name (v + 1) = .ok next) :
    ∃ body, (replayed.derivation graph).union old next = .ok body := by
  have harm : ∀ member ∈ old.members,
      ∃ arm, (replayed.derivation graph).arm old next member = .ok arm := by
    intro member hmember
    rw [Node.members, hkind] at hmember
    exact hg.exists_arm hr hv hkind hold hnext hmember
  obtain ⟨arms, harms⟩ := exists_mapM_eq_ok harm
  exact ⟨_, bind_eq_ok.mpr ⟨arms, harms, rfl⟩⟩

/-- **Every node that needs a path has one.** -/
theorem exists_path {node : Node} {id : NodeId} (hget : graph.nodes[id]? = some node)
    (hneeds : Derivation.needsPath graph.current node = true) :
    ∃ path, (replayed.derivation graph).path node = .ok path := by
  obtain ⟨label, hlabel, hbefore⟩ := Derivation.exists_label_of_needsPath hneeds
  obtain ⟨next, hnext, hnextNode⟩ := hg.exists_successor hget hlabel hbefore
  obtain ⟨-, hnode⟩ := hg.nodeAt_label hget hlabel
  have hv : label + 1 < replayed.chain.size := by
    rw [hg.current_eq] at hbefore
    omega
  obtain ⟨-, -, hrep⟩ := hg.represents_of_nodeAt hnode
  unfold Derivation.path
  dsimp only [Replayed.derivation]
  rw [hnext, ok_bind]
  dsimp only
  split
  · rename_i fields hkind
    have hbase := Replayed.base_of_describes (hkind ▸ hrep.kind)
    obtain ⟨x⟩ := Crossing.exists_crossing hg hv hbase hnode hnextNode
    obtain ⟨body, hbody⟩ := x.exists_record hr hg hlabel
    exact ⟨_, bind_eq_ok.mpr ⟨body, hbody, rfl⟩⟩
  · rename_i members hkind
    obtain ⟨body, hbody⟩ := hg.exists_union hr hv hkind hnode hnextNode
    exact ⟨_, bind_eq_ok.mpr ⟨body, hbody, rfl⟩⟩
  · rename_i kind hnotBase hnotSuper
    unfold Derivation.needsPath at hneeds
    split at hneeds
    · exact absurd ‹_› (hnotBase _)
    · exact absurd ‹_› (hnotSuper _)
    · cases hneeds

/-- **A graph has an upgrade plan**, whatever the number of workers. -/
theorem exists_derive (workers : Nat) :
    ∃ plan, UpgradePlan.derive workers replayed.chain replayed.history graph = .ok plan := by
  have hpaths : ∃ paths, ((graph.nodes.toList.filter
      (Derivation.needsPath graph.current)).mergeSort Derivation.precedes).mapM
        (replayed.derivation graph).path = .ok paths := by
    refine exists_mapM_eq_ok fun node hnode => ?_
    obtain ⟨hmem, hneeds⟩ := List.mem_filter.mp (List.mem_mergeSort.mp hnode)
    obtain ⟨id, hid⟩ := List.mem_iff_getElem?.mp hmem
    exact hg.exists_path hr (by rwa [Array.getElem?_toList] at hid) hneeds
  obtain ⟨paths, hpaths⟩ := hpaths
  rw [UpgradePlan.derive_eq]
  exact ⟨⟨_, paths⟩, bind_eq_ok.mpr ⟨paths, hpaths, rfl⟩⟩

end Built

end SchemaEvolution

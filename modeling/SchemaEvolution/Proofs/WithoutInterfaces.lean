import SchemaEvolution.Proofs.Identities
import SchemaEvolution.Proofs.Inventory
import SchemaEvolution.Proofs.MirroredPaths
import SchemaEvolution.Proofs.Reordering

/-!
# Interfaces do not influence migrations

A schema can be stripped of its interfaces. The versions, the layouts and the transformations stay
as they are; all that goes is that some references are no longer mentioned. A name that stays refers
to none that goes, so the same names change behind each version, with the same labels, and the
upgrades are the same, although the nodes have other ids.

## Main definitions

* `Config.withoutInterfaces`: no interface is declared, and none is implemented
* `Replayed.MentionsFewer`: a schema that is the same as another one but for what it mentions

## Main results

* `Replayed.MentionsFewer.affected_iff`: the same names change
* `Compilation.plan_eq_of_mentionsFewer`: the upgrades are the same
* `Config.Accepts.withoutInterfaces`: a schema is still accepted without its interfaces
* `Config.compile_withoutInterfaces`: interfaces do not influence migrations
-/

namespace SchemaEvolution

/-! ## Labels that stay -/

/-- Every name keeps its labels. -/
def Relabeling.keep : Relabeling := fun _ label => label

theorem Identity.relabel_keep (identity : Identity) : identity.relabel .keep = identity := by
  obtain ⟨name, version⟩ := identity
  cases version <;> rfl

theorem Identity.map_relabel_keep (identities : List Identity) :
    identities.map (Identity.relabel .keep) = identities :=
  List.map_id'' Identity.relabel_keep identities

theorem ValueExpr.relabel_keep (value : ValueExpr) : value.relabel .keep = value := by
  induction value with
  | oldField field => rfl
  | convert converter context input ih => rw [relabel, ih]
  | create initializer context => rfl
  | upgrade wrapper source steps input ih =>
    rw [relabel, Identity.relabel_keep, Identity.map_relabel_keep, ih]

theorem FieldOperation.relabel_keep (operation : FieldOperation) :
    operation.relabel .keep = operation := by
  cases operation with
  | upgrade field steps => rw [relabel, Identity.map_relabel_keep]
  | carry field => rfl
  | move source target => rfl
  | remove field => rfl
  | insert field initializer => rfl
  | convert field converter => rfl

theorem UnionArm.relabel_keep (arm : UnionArm) : arm.relabel .keep = arm := by
  obtain ⟨discriminant, member, source, target, action⟩ := arm
  have haction : action.relabel .keep = action := by
    cases action with
    | passThrough => rfl
    | upgrade steps => rw [ArmAction.relabel, Identity.map_relabel_keep]
  rw [relabel, Identity.relabel_keep, Identity.relabel_keep, haction]

theorem UpgradePath.relabel_keep (path : UpgradePath) : path.relabel .keep = path := by
  obtain ⟨type, source, target, body⟩ := path
  have hbody : body.relabel .keep = body := by
    cases body with
    | record operations assignments =>
      have hassignment : ∀ assignment : Assignment, assignment.relabel .keep = assignment :=
        fun assignment => by rw [Assignment.relabel, ValueExpr.relabel_keep]
      rw [UpgradeBody.relabel, List.map_id'' FieldOperation.relabel_keep,
        List.map_id'' hassignment]
    | union arms => rw [UpgradeBody.relabel, List.map_id'' UnionArm.relabel_keep]
  rw [relabel, Identity.relabel_keep, Identity.relabel_keep, hbody]

/-! ## Schemas that mention fewer types -/

/-- **A schema mentions fewer types** than another one, and is the same otherwise. -/
structure Replayed.MentionsFewer (replayed replayed' : Replayed) : Prop where
  embeds : replayed.Embeds replayed'
  chain : replayed'.chain = replayed.chain
  history : replayed'.history = replayed.history

namespace Replayed.MentionsFewer

variable {replayed replayed' : Replayed} {v label : Nat} {name : String}
  (hm : replayed.MentionsFewer replayed') (hr : replayed.Sound) (hr' : replayed'.Sound)

include hm hr hr'

/-- **The same names change**, among those of both schemas. -/
theorem affected_iff (hname : name ∈ replayed.blueprint.names) :
    replayed'.Affected v name ↔ replayed.Affected v name := by
  refine hm.embeds.affected_iff hr hr' hname (fun other => by rw [hm.history]) fun type => ?_
  rw [Targets, Targets, hm.history]

theorem labelAt (hname : name ∈ replayed.blueprint.names) (h : replayed.LabelAt v name label) :
    replayed'.LabelAt v name label where
  le := h.le
  lt_size := hm.chain ▸ h.lt_size
  ends := by
    rw [hm.chain, hm.affected_iff hr hr' hname]
    exact h.ends
  stays hle hlt := mt (hm.affected_iff hr hr' hname).mp (h.stays hle hlt)

theorem mirrors (hv : v < replayed.chain.size) : replayed.Mirrors replayed' .keep v v where
  lt_size := hv
  lt_size' := hm.chain ▸ hv
  layout name := by rw [hm.history]
  label := hm.labelAt hr hr'

theorem mirrorsStep (hv : v + 1 < replayed.chain.size) :
    replayed.MirrorsStep replayed' .keep v v where
  before := hm.mirrors hr hr' (Nat.lt_of_succ_lt hv)
  after := hm.mirrors hr hr' hv
  version := by
    obtain ⟨version, hversion⟩ : ∃ version, replayed.chain.get? (v + 1) = some version :=
      ⟨_, List.getElem?_eq_getElem hv⟩
    exact ⟨version, version, hversion, hm.chain ▸ hversion, rfl, rfl⟩
  code h := hm.chain ▸ h

variable {graph graph' : Graph} (hg : Built replayed 0 graph.sketch)
  (hg' : Built replayed' 0 graph'.sketch)

include hg hg'

omit hr hr' in
theorem current_eq : graph'.current = graph.current := by
  rw [hg'.current_eq, hg.current_eq, hm.chain]

/-- **A name has the same labels** in both graphs. -/
theorem exists_labels (hname : name ∈ replayed.blueprint.names) :
    ∃ labels, graph.labels name = .ok labels ∧ graph'.labels name = .ok labels := by
  have hname' := hm.embeds.mem_names hr hr' hname
  have hsame : replayed'.blueprint.evolves name = replayed.blueprint.evolves name :=
    hm.embeds.evolves_eq hr hr' hname
  cases hevolves : replayed.blueprint.evolves name with
  | false =>
    exact ⟨[], hg.labels_of_leaf hr hname hevolves,
      hg'.labels_of_leaf hr' hname' (hsame.trans hevolves)⟩
  | true =>
    have hstarts : graph'.starts name = graph.starts name := by
      rw [Graph.starts, Graph.starts, hm.current_eq hg hg']
      refine List.filter_congr fun v hv => Bool.eq_iff_iff.mpr ?_
      have hv : v < replayed.chain.size := by
        rw [List.mem_range, hg.current_eq] at hv
        exact Nat.lt_of_lt_pred hv
      rw [hg'.changes_iff (hm.chain ▸ hv), hg.changes_iff hv, hm.affected_iff hr hr' hname]
    refine ⟨_, hg.labels_eq hr hname hevolves, ?_⟩
    rw [hg'.labels_eq hr' hname' (hsame.trans hevolves), hstarts, hm.current_eq hg hg']

end Replayed.MentionsFewer

namespace Compilation

variable {c c' : Compilation} {version : Nat} {name : String}

/-- **The upgrades are the same**, and so is the code that they call. -/
theorem plan_eq_of_mentionsFewer (hc : c.Sound) (hc' : c'.Sound)
    (hm : c.schema.MentionsFewer c'.schema) : c'.plan = c.plan := by
  have hchain : c'.chain = c.chain := hm.chain
  have hsteps : ∀ {v}, v + 1 < c.schema.chain.size →
      c.schema.MirrorsStep c'.schema .keep v (id v) :=
    fun hv => hm.mirrorsStep hc.schema hc'.schema hv
  have hall : ∀ path ∈ c'.plan.paths, true = true ↔
      ∃ v, v + 1 < c.schema.chain.size ∧ path.source.version = some (id v) := by
    intro path hpath
    obtain ⟨label, next, hconnects⟩ := exists_connects hc' hpath
    have hlt : label + 1 < c.schema.chain.size := hm.chain ▸ hconnects.lt_size
    exact iff_of_true rfl ⟨label, hlt, congrArg Identity.version hconnects.source⟩
  have hpaths := filter_paths_eq_map hc hc' hm.embeds (fun hlt => hlt) hsteps hall
  rw [List.filter_true, List.map_id'' UpgradePath.relabel_keep] at hpaths
  have hreferences : c'.plan.references = c.plan.references := by
    rw [references_eq hc, references_eq hc', hchain]
  calc c'.plan = ⟨c'.plan.references, c'.plan.paths⟩ := rfl
    _ = ⟨c.plan.references, c.plan.paths⟩ := by rw [hreferences, hpaths]

/-- **A changed set holds the same names**, as far as they are names of both graphs. -/
theorem exists_changedAt_of_mentionsFewer (hc : c.Sound) (hc' : c'.Sound)
    (hm : c.schema.MentionsFewer c'.schema) (hv : version < c.chain.size) :
    ∃ changed changed', c.graph.changedAt? version = some changed ∧
      c'.graph.changedAt? version = some changed' ∧
        ∀ name, name ∈ changed ↔ name ∈ changed' ∧ c.graph.IsName name := by
  have hchain : c'.chain = c.chain := hm.chain
  obtain ⟨changed, hget, hchanged⟩ := exists_changedAt hc hv
  obtain ⟨changed', hget', hchanged'⟩ := exists_changedAt hc' (hchain ▸ hv)
  refine ⟨changed, changed', hget, hget', fun name => ?_⟩
  rw [hchanged, hchanged', hc.graph.isName_iff hc.schema]
  constructor
  · intro haffected
    have hname := hc.schema.mem_names_of_affected haffected
    exact ⟨(hm.affected_iff hc.schema hc'.schema hname).mpr haffected, hname⟩
  · rintro ⟨haffected, hname⟩
    exact (hm.affected_iff hc.schema hc'.schema hname).mp haffected

end Compilation

/-! ## Schemas without interfaces -/

/-- The base type as written, without the interfaces that it implements. -/
def BaseTypeConfig.withoutInterfaces (written : BaseTypeConfig) : BaseTypeConfig :=
  { written with implemented := [] }

/-- **The schema without its interfaces**: none is declared, and none is implemented. -/
def Config.withoutInterfaces (config : Config) : Config :=
  { config with
    interfaces := ∅
    baseTypes := config.baseTypes.map BaseTypeConfig.withoutInterfaces }

/-- The base type without the interfaces that it implements. -/
def BaseType.withoutInterfaces (type : BaseType) : BaseType := { type with implemented := [] }

/-- The definition without its interfaces. -/
def Definition.withoutInterfaces (definition : Definition) : Definition :=
  { definition with
    interfaces := ∅
    baseTypes := definition.baseTypes.map BaseType.withoutInterfaces }

/-- The schema with its history, without its interfaces. -/
def Replayed.withoutInterfaces (replayed : Replayed) : Replayed :=
  { replayed with definition := replayed.definition.withoutInterfaces }

variable {config : Config} {catalog : Catalog} {definition : Definition} {replayed : Replayed}
  {workers : Nat} {c : Compilation}

/-- Interfaces have no part in the catalog. -/
theorem Catalog.ofConfig_withoutInterfaces (h : ofConfig config = .ok catalog) :
    ofConfig config.withoutInterfaces = .ok catalog := by
  obtain ⟨bases, hbase, h⟩ := bind_eq_ok.mp h
  obtain ⟨supers, hsuper, h⟩ := bind_eq_ok.mp h
  obtain ⟨customs, hcustom, h⟩ := bind_eq_ok.mp h
  obtain ⟨⟨⟩, -, h⟩ := bind_eq_ok.mp h
  obtain rfl := Except.ok.inj h
  have hkeys : config.withoutInterfaces.baseTypes.keys = config.baseTypes.keys :=
    OrderedMap.keys_map _ _
  refine bind_eq_ok.mpr ⟨bases, hkeys ▸ hbase, bind_eq_ok.mpr ⟨supers, hsuper, ?_⟩⟩
  exact bind_eq_ok.mpr ⟨customs, hcustom, bind_eq_ok.mpr ⟨(), rfl, rfl⟩⟩

theorem Definition.readInterfaces_withoutInterfaces :
    readInterfaces config.withoutInterfaces catalog = .ok ∅ := by
  refine readInterfaces_eq_ok_iff.mpr ⟨nofun, fun name hcircle => ?_, ∅, rfl, rfl⟩
  obtain ⟨parent, hextends, -⟩ := Relation.TransGen.head'_iff.mp hcircle
  cases hextends

theorem Definition.readBaseType_withoutInterfaces {name : String} {written : BaseTypeConfig}
    {type : BaseType} (h : readBaseType config catalog name written = .ok type) :
    readBaseType config.withoutInterfaces catalog name written.withoutInterfaces =
      .ok type.withoutInterfaces := by
  obtain ⟨fields, hfields, h⟩ := bind_eq_ok.mp h
  obtain ⟨⟨⟩, -, h⟩ := bind_eq_ok.mp h
  obtain rfl := Except.ok.inj h
  exact bind_eq_ok.mpr ⟨fields, hfields, bind_eq_ok.mpr ⟨(), rfl, rfl⟩⟩

/-- **A schema without its interfaces is resolved** to the definition without its interfaces. -/
theorem Definition.Resolves.withoutInterfaces (h : Resolves config definition) :
    Resolves config.withoutInterfaces definition.withoutInterfaces where
  currentVersion := h.currentVersion
  catalog := Catalog.ofConfig_withoutInterfaces h.catalog
  baseTypes := by
    change (config.baseTypes.map BaseTypeConfig.withoutInterfaces).traverse _ =
      .ok (definition.baseTypes.map BaseType.withoutInterfaces)
    refine OrderedMap.traverse_map_eq_ok (fun hread => ?_) h.baseTypes
    exact Definition.readBaseType_withoutInterfaces hread
  superTypes := h.superTypes
  customTypes := h.customTypes
  interfaces := Definition.readInterfaces_withoutInterfaces
  versions := h.versions

namespace History

theorem initialLayouts_withoutInterfaces (definition : Definition) :
    initialLayouts definition.withoutInterfaces = initialLayouts definition := by
  refine OrderedMap.ext ?_
  exact List.map_map.trans (List.map_congr_left fun _ _ => rfl)

theorem ofChain_withoutInterfaces (definition : Definition) (chain : Chain) :
    ofChain definition.withoutInterfaces chain = ofChain definition chain := by
  rw [ofChain, ofChain, initialLayouts_withoutInterfaces]
  rfl

/-- Where nothing is implemented, nothing is missing. -/
theorem checkInterfaces_withoutInterfaces (history : History) (definition : Definition)
    (version : Nat) : history.checkInterfaces definition.withoutInterfaces version = .ok () := by
  refine checkTypes_eq_ok_iff.mpr fun entry hentry layout _ => ?_
  obtain ⟨declared, -, rfl⟩ := List.mem_map.mp hentry
  rfl

end History

/-- **A schema is still accepted without its interfaces**, with the same history. -/
theorem Config.Accepts.withoutInterfaces (h : config.Accepts replayed) :
    config.withoutInterfaces.Accepts replayed.withoutInterfaces where
  definition := Definition.ofConfig_eq_ok_iff.mpr
    (Definition.ofConfig_eq_ok_iff.mp h.definition).withoutInterfaces
  chain := h.chain
  history := (History.ofChain_withoutInterfaces _ _).trans h.history
  interfaces := History.checkInterfaces_withoutInterfaces _ _ _

/-- What is mentioned without the interfaces is mentioned with them. -/
theorem Replayed.mentionsFewer_withoutInterfaces (replayed : Replayed) :
    replayed.withoutInterfaces.MentionsFewer replayed where
  embeds :=
    { catalog := rfl
      superTypes := rfl
      typeRefs := by
        intro ref href
        rw [Replayed.mem_typeRefs_iff] at href ⊢
        refine href.imp_right (Or.imp_right ?_)
        rintro ⟨interface, hinterface, -⟩
        cases hinterface }
  chain := rfl
  history := rfl

namespace Compilation

variable {graph : Graph} {plan : UpgradePlan} {name : String}

/-- **The names that go** with the interfaces are the spellings of the wrapped references that only
interfaces mention. -/
theorem isName_withoutInterfaces (h : config.compile workers = .ok c) {workers' : Nat}
    (h' : config.withoutInterfaces.compile workers' =
      .ok ⟨c.definition.withoutInterfaces, c.chain, c.history, graph, plan⟩) :
    c.graph.IsName name ∧ ¬graph.IsName name ↔ ∃ ref : TypeRef, ref.isWrapped = true ∧
      ref.canonical = name ∧ c.OccursInInterfaces ref ∧ ¬c.OccursInData ref := by
  have hc := sound_of_compile h
  have hname : graph.IsName name ↔ name ∈ c.definition.catalog ∨ ∃ ref : TypeRef,
      ref.isWrapped = true ∧ ref.canonical = name ∧ c.OccursInData ref := by
    have hnone : ∀ ref, ¬(Compilation.mk c.definition.withoutInterfaces c.chain c.history graph
        plan).OccursInInterfaces ref := by
      rintro ref ⟨interface, declared, hget, -⟩
      cases hget
    have hmentioned : graph.IsName name ↔ _ := isName_iff_mentioned h'
    simp only [hnone, or_false] at hmentioned
    exact hmentioned
  rw [isName_iff_mentioned h, hname]
  constructor
  · rintro ⟨hcatalog | ⟨ref, hwrapped, rfl, hdata | hinterface⟩, hnot⟩
    · exact absurd (.inl hcatalog) hnot
    · exact absurd (.inr ⟨ref, hwrapped, rfl, hdata⟩) hnot
    · exact ⟨ref, hwrapped, rfl, hinterface, fun hdata =>
        hnot (.inr ⟨ref, hwrapped, rfl, hdata⟩)⟩
  · rintro ⟨ref, hwrapped, rfl, hinterface, hdata⟩
    refine ⟨.inr ⟨ref, hwrapped, rfl, .inr hinterface⟩, ?_⟩
    rintro (hcatalog | ⟨other, hother, hsame, hoccurs⟩)
    · obtain ⟨category, hcategory⟩ := SortedMap.exists_get?_of_mem hcatalog
      exact TypeRef.not_isName_canonical hwrapped (hc.schema.definition.isName hcategory)
    · obtain rfl := TypeRef.canonical_inj_of_wrapped hother hwrapped hsame
      exact hdata hoccurs

end Compilation

/-- **Interfaces do not influence migrations.** A schema that compiles does so without its
interfaces, with the same chain, the same layouts at all versions, and the same upgrades and code.
Every name that stays has the same labels and is in the same changed sets. The names that go are the
spellings of the wrapped references that only interfaces mention. -/
theorem Config.compile_withoutInterfaces (h : config.compile workers = .ok c) (workers' : Nat) :
    ∃ c', config.withoutInterfaces.compile workers' = .ok c' ∧
      c'.chain = c.chain ∧ c'.history = c.history ∧ c'.plan = c.plan ∧
      (∀ name, c'.graph.IsName name → c.graph.IsName name ∧
        ∃ labels, c.graph.labels name = .ok labels ∧ c'.graph.labels name = .ok labels) ∧
      c'.graph.versionCount = c.graph.versionCount ∧
      (∀ version < c.graph.versionCount, ∃ changed changed',
        c.graph.changedAt? version = some changed ∧ c'.graph.changedAt? version = some changed' ∧
          ∀ name, name ∈ changed' ↔ name ∈ changed ∧ c'.graph.IsName name) ∧
      ∀ name, c.graph.IsName name ∧ ¬c'.graph.IsName name ↔ ∃ ref : TypeRef,
        ref.isWrapped = true ∧ ref.canonical = name ∧ c.OccursInInterfaces ref ∧
          ¬c.OccursInData ref := by
  obtain ⟨graph, plan, -, -, h', -⟩ :=
    (accepts_of_compile h).withoutInterfaces.exists_compile workers'
  have hc := Compilation.sound_of_compile h
  have hc' := Compilation.sound_of_compile h'
  have hm : c.schema.withoutInterfaces.MentionsFewer c.schema :=
    c.schema.mentionsFewer_withoutInterfaces
  refine ⟨_, h', rfl, rfl, (Compilation.plan_eq_of_mentionsFewer hc' hc hm).symm,
    fun name hname => ?_, ?_, fun version hv => ?_,
    fun name => Compilation.isName_withoutInterfaces h h'⟩
  · rw [hc'.graph.isName_iff hc'.schema] at hname
    rw [hc.graph.isName_iff hc.schema]
    obtain ⟨labels, hlabels', hlabels⟩ :=
      hm.exists_labels hc'.schema hc.schema hc'.graph hc.graph hname
    exact ⟨hm.embeds.mem_names hc'.schema hc.schema hname, labels, hlabels, hlabels'⟩
  · exact hc'.graph.versionCount_eq.trans hc.graph.versionCount_eq.symm
  · rw [hc.graph.versionCount_eq] at hv
    obtain ⟨changed', changed, hget', hget, hmem⟩ :=
      Compilation.exists_changedAt_of_mentionsFewer hc' hc hm hv
    exact ⟨changed, changed', hget, hget', hmem⟩

set_option maxRecDepth 20000 in
theorem Config.names_tagged_withoutInterfaces :
    (Config.tagged.withoutInterfaces.compile 1).toOption.map
      (fun c => (c.graph.index.names 0).contains "§string") = some false := by
  cbv

/-- The sample loses the name of a reference that only an interface mentions, and keeps its
upgrades. -/
theorem Config.compile_withoutInterfaces_tagged : ∃ c c' ref, Config.tagged.compile 1 = .ok c ∧
    Config.tagged.withoutInterfaces.compile 1 = .ok c' ∧ c'.plan = c.plan ∧
      c.graph.IsName "§string" ∧ ¬c'.graph.IsName "§string" ∧ ref.canonical = "§string" ∧
        c.OccursInInterfaces ref ∧ ¬c.OccursInData ref := by
  obtain ⟨c, h, hnames, -⟩ := Compilation.exists_compile_tagged
  obtain ⟨c', h', -, -, hplan, -, -, -, hgone⟩ := compile_withoutInterfaces h 1
  have hname : c.graph.IsName "§string" :=
    (Compilation.mem_names_iff_isName (Compilation.sound_of_compile h)).mp
      (hnames "§string" (by decide))
  have hname' : ¬c'.graph.IsName "§string" := by
    rw [← Compilation.mem_names_iff_isName (Compilation.sound_of_compile h')]
    have hreduced := names_tagged_withoutInterfaces
    rw [h'] at hreduced
    simpa [Except.toOption] using hreduced
  obtain ⟨ref, -, hcanonical, hinterface, hdata⟩ := (hgone "§string").mp ⟨hname, hname'⟩
  exact ⟨c, c', ref, h, h', hplan, hname, hname', hcanonical, hinterface, hdata⟩

end SchemaEvolution

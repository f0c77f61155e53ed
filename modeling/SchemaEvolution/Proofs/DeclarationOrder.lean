import SchemaEvolution.Interchange
import SchemaEvolution.Proofs.Reordering
import SchemaEvolution.Proofs.Sequencing
import SchemaEvolution.Proofs.Totality

/-!
# The order of declarations does not show

Two schemas that differ in the order of their entries are both accepted or both refused, and what
they compile to is the same document. The layouts of a version are kept in declaration order, but
from there on everything goes by name: a name is looked up, or all names are walked in ascending
order.

## Main definitions

* `History.Reordered`, `Replayed.Reordered`: the layouts of every version are reordered

## Main results

* `Chain.ofDefinition_reordered`: the chain is the same
* `History.exists_ofChain_reordered`: the layouts of every version are the same, reordered
* `Graph.build_reordered`, `UpgradePlan.derive_reordered`: the graph and the plan are the same
* `Config.compile_reordered`: the order of declarations does not show
-/

namespace SchemaEvolution

/-! ## The chain -/

namespace Chain

variable {definition definition' : Definition} {order : List String}

theorem Enumerates.reordered (horder : Enumerates definition order)
    (h : definition.Reordered definition') : Enumerates definition' order := by
  have hcontinues : ∀ before name, Continues definition.versions before name →
      Continues definition'.versions before name := by
    rintro before name ⟨version, hversion, hprevious⟩
    exact ⟨version, h.versions.get?_eq name ▸ hversion, hprevious⟩
  refine ⟨horder.nodup, fun name => ?_, horder.linked.imp hcontinues, ?_, ?_⟩
  · rw [horder.mem, h.versions.mem_iff]
  · obtain ⟨root, version, hhead, hversion, hroot⟩ := horder.first
    exact ⟨root, version, hhead, h.versions.get?_eq root ▸ hversion, hroot⟩
  · rw [horder.last, h.currentVersion]

/-- **The chain is the same** for reordered versions. -/
theorem ofDefinition_reordered (h : definition.Reordered definition') {chain : Chain}
    (hchain : ofDefinition definition = .ok chain) : ofDefinition definition' = .ok chain := by
  obtain ⟨order, horder, rfl⟩ := enumerates_of_ofDefinition hchain
  have hsame : versionAt definition'.versions = versionAt definition.versions := by
    funext count index name
    rw [versionAt, versionAt, h.versions.get?_eq]
  rw [(horder.reordered h).ofDefinition_eq, ofOrder, ofOrder, hsame]

end Chain

/-! ## The history -/

/-- The same layouts in whatever order, with the same changes. -/
structure Stage.Reordered (stage stage' : Stage) : Prop where
  layouts : stage.layouts.Reordered stage'.layouts
  changed : stage.changed = stage'.changed
  transformations : stage.transformations = stage'.transformations

namespace Layouts

variable {catalog : Catalog} {version : String} {previous previous' working working' : Layouts}

theorem exists_applyStep_reordered (h : working.Reordered working') {step : Step} {out : Layouts}
    (happly : applyStep version step working = .ok out) :
    ∃ out', applyStep version step working' = .ok out' ∧ out.Reordered out' := by
  obtain ⟨layout, layout', hget, hlayout, rfl⟩ := applyStep_eq_ok happly
  refine ⟨working'.replace step.type layout', ?_, h.replace _ _⟩
  rw [applyStep, ← h.get?_eq, hget]
  exact bind_eq_ok.mpr ⟨layout', hlayout, rfl⟩

/-- **A version is replayed** on reordered layouts with the same result, reordered. -/
theorem exists_replayFrom_reordered (hprevious : previous.Reordered previous') {steps : List Step}
    (h : working.Reordered working') {changed changed' : NameSet} {out : Layouts}
    (hreplay : replayFrom catalog version previous steps (working, changed) =
      .ok (out, changed')) :
    ∃ out', replayFrom catalog version previous' steps (working', changed) = .ok (out', changed') ∧
      out.Reordered out' := by
  induction steps generalizing working working' changed with
  | nil =>
    obtain ⟨rfl, rfl⟩ := Prod.mk.inj (Except.ok.inj hreplay)
    exact ⟨working', rfl, h⟩
  | cons step rest ih =>
    obtain ⟨⟨⟩, hcheck, hreplay⟩ := bind_eq_ok.mp hreplay
    obtain ⟨⟨⟩, hcontext, hreplay⟩ := bind_eq_ok.mp hreplay
    obtain ⟨middle, happly, hreplay⟩ := bind_eq_ok.mp hreplay
    obtain ⟨middle', happly', hmiddle⟩ := exists_applyStep_reordered h happly
    obtain ⟨out', hout', hsame⟩ := ih hmiddle hreplay
    refine ⟨out', ?_, hsame⟩
    rw [checkContext, hprevious.get?_eq] at hcontext
    exact bind_eq_ok.mpr ⟨(), hcheck, bind_eq_ok.mpr ⟨(), hcontext,
      bind_eq_ok.mpr ⟨middle', happly', hout'⟩⟩⟩

end Layouts

namespace History

variable {history history' : History} {definition definition' : Definition}

/-- **The same layouts at every version**, in whatever order. -/
def Reordered (history history' : History) : Prop :=
  List.Forall₂ Stage.Reordered history.stages history'.stages

theorem exists_stagesFrom_reordered {catalog : Catalog} {previous previous' : Layouts}
    (h : previous.Reordered previous') {versions : List Version} {stages : List Stage}
    (hstages : stagesFrom catalog previous versions = .ok stages) :
    ∃ stages', stagesFrom catalog previous' versions = .ok stages' ∧
      List.Forall₂ Stage.Reordered stages stages' := by
  induction versions generalizing previous previous' stages with
  | nil =>
    obtain rfl := Except.ok.inj hstages
    exact ⟨[], rfl, .nil⟩
  | cons version rest ih =>
    obtain ⟨⟨layouts, changed⟩, hreplay, hstages⟩ := bind_eq_ok.mp hstages
    obtain ⟨later, hlater, hstages⟩ := bind_eq_ok.mp hstages
    obtain rfl := Except.ok.inj hstages
    obtain ⟨layouts', hreplay', hlayouts⟩ := Layouts.exists_replayFrom_reordered h h hreplay
    obtain ⟨later', hlater', hrest⟩ := ih hlayouts hlater
    exact ⟨_, bind_eq_ok.mpr ⟨_, hreplay', bind_eq_ok.mpr ⟨_, hlater', rfl⟩⟩,
      .cons ⟨hlayouts, rfl, rfl⟩ hrest⟩

/-- **The layouts of every version are the same**, reordered. -/
theorem exists_ofChain_reordered (h : definition.Reordered definition') {chain : Chain}
    (hhistory : ofChain definition chain = .ok history) :
    ∃ history', ofChain definition' chain = .ok history' ∧ history.Reordered history' := by
  obtain ⟨later, hlater, hhistory⟩ := bind_eq_ok.mp hhistory
  obtain rfl := Except.ok.inj hhistory
  have hinitial : (initialLayouts definition).Reordered (initialLayouts definition') :=
    h.baseTypes.map _
  obtain ⟨later', hlater', hstages⟩ := exists_stagesFrom_reordered hinitial hlater
  rw [h.catalog] at hlater'
  exact ⟨_, bind_eq_ok.mpr ⟨_, hlater', rfl⟩, .cons ⟨hinitial, rfl, rfl⟩ hstages⟩

namespace Reordered

variable (h : history.Reordered history')

include h

theorem symm : history'.Reordered history :=
  h.flip.imp fun _ _ hstage =>
    ⟨hstage.layouts.symm, hstage.changed.symm, hstage.transformations.symm⟩

theorem size_eq : history.size = history'.size := h.length_eq

/-- At each version there is a stage in both histories or in none. -/
theorem cases_stage (v : Nat) :
    (history.stages[v]? = none ∧ history'.stages[v]? = none) ∨
      ∃ stage stage', history.stages[v]? = some stage ∧ history'.stages[v]? = some stage' ∧
        stage.Reordered stage' := by
  cases hstage : history.stages[v]? with
  | some stage =>
    obtain ⟨stage', hstage', hsame⟩ := exists_getElem?_right_of_forall₂ h hstage
    exact .inr ⟨stage, stage', rfl, hstage', hsame⟩
  | none =>
    refine .inl ⟨rfl, ?_⟩
    rw [List.getElem?_eq_none_iff] at hstage ⊢
    rwa [← h.length_eq]

theorem layout?_eq (v : Nat) (name : String) :
    history.layout? v name = history'.layout? v name := by
  rcases h.cases_stage v with ⟨hnone, hnone'⟩ | ⟨stage, stage', hstage, hstage', hsame⟩
  · rw [layout?, layout?, hnone, hnone']
  · rw [layout?, layout?, hstage, hstage']
    exact hsame.layouts.get?_eq name

theorem snapshotOf_eq {v : Nat} {stage stage' : Stage}
    (hstage : stage.transformations = stage'.transformations) (type : String) (fields : Layout) :
    history.snapshotOf v stage type fields = history'.snapshotOf v stage' type fields := by
  have hdiffers : history.differsAfter v type fields = history'.differsAfter v type fields := by
    rcases h.cases_stage (v + 1) with ⟨hnone, hnone'⟩ | ⟨next, next', hnext, hnext', hsame⟩
    · rw [differsAfter, differsAfter, hnone, hnone']
    · simp only [differsAfter, hnext, hnext', hsame.changed, hsame.layouts.get?_eq]
  rw [snapshotOf, snapshotOf, hstage, hdiffers]

theorem snapshot?_eq (v : Nat) (type : String) :
    history.snapshot? v type = history'.snapshot? v type := by
  rcases h.cases_stage v with ⟨hnone, hnone'⟩ | ⟨stage, stage', hstage, hstage', hsame⟩
  · rw [snapshot?, snapshot?, hnone, hnone']
    rfl
  · simp only [snapshot?, hstage, hstage', Option.bind_eq_bind, Option.bind_some,
      hsame.layouts.get?_eq, h.snapshotOf_eq hsame.transformations]

/-- The snapshots of a version are the same, reordered. -/
theorem snapshots_perm (v : Nat) : (history.snapshots v).Perm (history'.snapshots v) := by
  rcases h.cases_stage v with ⟨hnone, hnone'⟩ | ⟨stage, stage', hstage, hstage', hsame⟩
  · rw [snapshots, snapshots, hnone, hnone']
  · simp only [snapshots, hstage, hstage', h.snapshotOf_eq hsame.transformations]
    exact List.Perm.map _ hsame.layouts

end Reordered

/-! ### Interfaces -/

/-- **The interfaces are found to be implemented** in both histories or in none. -/
theorem checkInterfaces_reordered (h : definition.Reordered definition')
    (hhistory : history.Reordered history') {version : Nat}
    (hcheck : history.checkInterfaces definition version = .ok ()) :
    history'.checkInterfaces definition' version = .ok () := by
  refine checkTypes_eq_ok_iff.mpr fun entry hentry layout hlayout => ?_
  rw [← hhistory.layout?_eq] at hlayout
  rw [← checkImplemented_congr h.interfaces.get?_eq]
  exact checkTypes_eq_ok_iff.mp hcheck entry (h.baseTypes.symm.subset hentry) layout hlayout

end History

/-! ## The graph -/

/-- The closure does not see the order of what it starts from. -/
theorem Index.closure_perm {index : Index} {version : Nat} {seed seed' : List String}
    (h : seed.Perm seed') : index.closure version seed = index.closure version seed' :=
  NameSet.eq_of_mem fun name => by simp only [mem_closure_iff, h.mem_iff]

/-- **The same schema with its history**, with all entries and layouts in whatever order. -/
structure Replayed.Reordered (replayed replayed' : Replayed) : Prop where
  definition : replayed.definition.Reordered replayed'.definition
  chain : replayed.chain = replayed'.chain
  history : replayed.history.Reordered replayed'.history

namespace Replayed.Reordered

open Blueprint

variable {replayed replayed' : Replayed} (h : replayed.Reordered replayed')

include h

theorem mem_typeRefs_iff {ref : TypeRef} :
    ref ∈ replayed.typeRefs ↔ ref ∈ replayed'.typeRefs := by
  simp only [Replayed.mem_typeRefs_iff, h.history.layout?_eq,
    h.definition.interfaces.mem_values_iff, h.chain]

/-- **The names of the graph** stand for the same. -/
theorem entries_eq : replayed.blueprint.entries = replayed'.blueprint.entries := by
  refine SortedMap.eq_of_get? fun name => ?_
  have hwrapped : ∀ {refs : List TypeRef}, ∀ ref ∈ refs.filter TypeRef.isWrapped,
      ref.isWrapped = true := fun ref href => (List.mem_filter.mp href).2
  ext entry
  refine (get?_foldl_insertNew hwrapped _ _).trans (Iff.trans ?_
    (get?_foldl_insertNew hwrapped _ _).symm)
  rw [h.definition.catalog]
  have hrefs : ∀ ref, ref ∈ Blueprint.typeRefs replayed.definition replayed.chain replayed.history ↔
      ref ∈ Blueprint.typeRefs replayed'.definition replayed'.chain replayed'.history :=
    fun ref => h.mem_typeRefs_iff
  simp only [List.mem_filter, hrefs]

theorem names_eq : replayed.blueprint.names = replayed'.blueprint.names := by
  rw [names, names, h.entries_eq]

theorem row_eq : replayed.blueprint.row = replayed'.blueprint.row := by
  have hreferences : replayed.blueprint.references = replayed'.blueprint.references := by
    funext version name entry
    unfold references
    simp only [blueprint, ofDefinition, h.history.layout?_eq, h.definition.superTypes.get?_eq]
  funext version
  rw [row, row, h.entries_eq, hreferences]

/-- **The node of a name at a version** is the same. -/
theorem node_eq : replayed.blueprint.node = replayed'.blueprint.node := by
  have hbody : replayed.blueprint.body = replayed'.blueprint.body := by
    funext index version name
    unfold body
    rw [h.entries_eq]
    simp only [blueprint, ofDefinition, h.history.layout?_eq, h.definition.superTypes.get?_eq,
      h.definition.customTypes.get?_eq]
  have hevolves : replayed.blueprint.evolves = replayed'.blueprint.evolves := by
    funext name
    unfold evolves
    rw [h.entries_eq]
    simp only [blueprint, ofDefinition, h.definition.catalog]
  funext index version job
  rw [node, node, hbody, hevolves]

theorem extend_eq (version : Nat) (isNew : String → Bool) (changed : NameSet) (sketch : Sketch) :
    sketch.extend replayed.blueprint version isNew changed =
      sketch.extend replayed'.blueprint version isNew changed := by
  simp only [Sketch.extend, h.names_eq, h.node_eq]

/-- **The walk back** is the same: each version starts its closure from the same types. -/
theorem walkBack_eq (version : Nat) (sketch : Sketch) :
    sketch.walkBack replayed.blueprint version = sketch.walkBack replayed'.blueprint version := by
  induction version generalizing sketch with
  | zero => rfl
  | succ version ih =>
    have hstep : ∀ replayed : Replayed,
        sketch.walkBack replayed.blueprint (version + 1) =
          (sketch.extend replayed.blueprint version
            (fun name => decide (name ∈ sketch.index.closure (version + 1) (replayed.seed version)))
            (sketch.index.closure (version + 1) (replayed.seed version)) >>= fun sketch =>
              sketch.walkBack replayed.blueprint version) := fun _ => rfl
    have hseed : (replayed.seed version).Perm (replayed'.seed version) :=
      ((h.history.snapshots_perm version).filter Snapshot.differsFromNext).map Snapshot.type
    simp only [hstep, Index.closure_perm hseed, h.extend_eq, ih]

end Replayed.Reordered

/-- **The graph is the same.** -/
theorem Graph.build_reordered {definition definition' : Definition} {chain : Chain}
    {history history' : History} (hdefinition : definition.Reordered definition')
    (hhistory : history.Reordered history') (workers workers' : Nat) :
    build workers definition chain history = build workers' definition' chain history' := by
  have h : Replayed.Reordered ⟨definition, chain, history⟩ ⟨definition', chain, history'⟩ :=
    ⟨hdefinition, rfl, hhistory⟩
  have hblueprint : ∀ (definition : Definition) (history : History),
      Blueprint.ofDefinition definition chain history =
        (⟨definition, chain, history⟩ : Replayed).blueprint := fun _ _ => rfl
  simp only [build_eq, hblueprint, h.row_eq, h.extend_eq, h.walkBack_eq, hhistory.size_eq]

/-! ## The plan -/

namespace Derivation

variable {source : Derivation} {history : History} {old next : Node}

theorem replay_history (version : Nat) (steps : List Step) (carried : OrderedMap Carried) :
    { source with history := history }.replay old version steps carried =
      source.replay old version steps carried := by
  induction steps generalizing carried with
  | nil => rfl
  | cons step rest ih =>
    simp only [replay, ih]
    rfl

theorem assignAll_history (version : Nat) (carried : List (String × Carried))
    (declared : List NodeField) :
    { source with history := history }.assignAll old next version carried declared =
      source.assignAll old next version carried declared := by
  induction carried generalizing declared with
  | nil => cases declared <;> rfl
  | cons entry rest ih =>
    cases declared with
    | nil => rfl
    | cons field later =>
      simp only [assignAll, ih]
      rfl

/-- **A path sees the snapshots** of a history only. -/
theorem path_history (h : source.history.snapshot? = history.snapshot?) :
    source.path = { source with history := history }.path := by
  funext old
  simp only [path, record, replay_history, assignAll_history, h]
  rfl

end Derivation

/-- **The plan is the same.** -/
theorem UpgradePlan.derive_reordered {chain : Chain} {history history' : History}
    (h : history.Reordered history') (workers workers' : Nat) (graph : Graph) :
    derive workers chain history graph = derive workers' chain history' graph := by
  have hsnapshots : history.snapshot? = history'.snapshot? := by
    funext version type
    exact h.snapshot?_eq version type
  have hpath : Derivation.path ⟨chain, history, graph, CodeRef.registry chain⟩ =
      Derivation.path ⟨chain, history', graph, CodeRef.registry chain⟩ :=
    Derivation.path_history hsnapshots
  simp only [derive_eq, hpath]

/-! ## The whole compilation -/

namespace Config

variable {config config' : Config}

theorem Accepts.exists_reordered {replayed : Replayed} (haccepts : config.Accepts replayed)
    (h : config.Reordered config') :
    ∃ replayed', config'.Accepts replayed' ∧ replayed.Reordered replayed' := by
  obtain ⟨definition, hdefinition, hsame⟩ :=
    Definition.exists_ofConfig_reordered h haccepts.definition
  have hchain := Chain.ofDefinition_reordered hsame haccepts.chain
  obtain ⟨history, hhistory, hstages⟩ := History.exists_ofChain_reordered hsame haccepts.history
  exact ⟨⟨definition, replayed.chain, history⟩, ⟨hdefinition, hchain, hhistory,
    History.checkInterfaces_reordered hsame hstages haccepts.interfaces⟩, hsame, rfl, hstages⟩

/-- A schema with its entries reordered compiles as well, to the same chain, graph and plan. -/
theorem exists_compile_reordered (h : config.Reordered config') {workers : Nat} {c : Compilation}
    (hc : config.compile workers = .ok c) (workers' : Nat) :
    ∃ c', config'.compile workers' = .ok c' ∧ c'.chain = c.chain ∧ c'.graph = c.graph ∧
      c'.plan = c.plan := by
  obtain ⟨definition, chain, history, graph, plan⟩ := c
  have haccepts : config.Accepts ⟨definition, chain, history⟩ := accepts_of_compile hc
  obtain ⟨found, foundPlan, hgraph, hplan, hcompile, -⟩ := haccepts.exists_compile workers
  cases Except.ok.inj (hc.symm.trans hcompile)
  obtain ⟨⟨definition', chain', history'⟩, haccepts', hsame⟩ := haccepts.exists_reordered h
  obtain rfl : chain = chain' := hsame.chain
  obtain ⟨graph', plan', hgraph', hplan', hcompile', -⟩ := haccepts'.exists_compile workers'
  obtain rfl : graph = graph' := Except.ok.inj (hgraph.symm.trans
    ((Graph.build_reordered hsame.definition hsame.history workers workers').trans hgraph'))
  obtain rfl : plan = plan' := Except.ok.inj (hplan.symm.trans
    ((UpgradePlan.derive_reordered hsame.history workers workers' graph).trans hplan'))
  exact ⟨_, hcompile', rfl, rfl, rfl⟩

/-- **The order of declarations does not show.** Of two schemas that differ in the order of their
entries, both compile or none does, and then both documents are the same, whatever the number of
workers. -/
theorem compile_reordered (h : config.Reordered config') (workers workers' : Nat) :
    ((∃ c, config.compile workers = .ok c) ↔ ∃ c', config'.compile workers' = .ok c') ∧
      ∀ c c', config.compile workers = .ok c → config'.compile workers' = .ok c' →
        c.json = c'.json := by
  refine ⟨⟨?_, ?_⟩, fun c c' hc hc' => ?_⟩
  · rintro ⟨c, hc⟩
    obtain ⟨c', hc', -⟩ := exists_compile_reordered h hc workers'
    exact ⟨c', hc'⟩
  · rintro ⟨c', hc'⟩
    obtain ⟨c, hc, -⟩ := exists_compile_reordered h.symm hc' workers
    exact ⟨c, hc⟩
  · obtain ⟨found, hfound, hchain, hgraph, hplan⟩ := exists_compile_reordered h hc workers'
    obtain rfl := Except.ok.inj (hfound.symm.trans hc')
    have htable : found.tableJson = c.tableJson := by
      funext version
      simp only [Compilation.tableJson, hchain, hgraph]
    simp only [Compilation.json, htable, hchain, hgraph, hplan]

/-- The sample with its base types and its versions in the opposite order. -/
def sampleReversed : Config :=
  { sample with
    baseTypes := .ofList sample.baseTypes.entries.reverse
    versions := .ofList sample.versions.entries.reverse }

theorem sample_reordered : sample.Reordered sampleReversed where
  currentVersion := rfl
  interfaces := .refl _
  baseTypes := by
    rw [OrderedMap.Reordered, sampleReversed, OrderedMap.entries_ofList (by decide)]
    exact (List.reverse_perm _).symm
  superTypes := .refl _
  customTypes := .refl _
  versions := by
    rw [OrderedMap.Reordered, sampleReversed, OrderedMap.entries_ofList (by decide)]
    exact (List.reverse_perm _).symm

/-- The sample in both orders. -/
theorem compile_reordered_sample : sampleReversed.baseTypes.keys = ["B", "A"] ∧
    ∃ c c', sample.compile 1 = .ok c ∧ sampleReversed.compile 2 = .ok c' ∧ c.json = c'.json := by
  obtain ⟨hiff, hsame⟩ := compile_reordered sample_reordered 1 2
  obtain ⟨c, -, hc, -⟩ := exists_compile_sample
  obtain ⟨c', hc'⟩ := hiff.mp ⟨c, hc⟩
  exact ⟨by decide, c, c', hc, hc', hsame c c' hc hc'⟩

end Config

end SchemaEvolution

import SchemaEvolution.Proofs.Derive

/-!
# Compiling fails by the fault of the schema only

Once a schema is resolved, its versions are in order, its transformations are replayed and its
interfaces are checked, nothing can go wrong any more: the graph is built and the upgrades are
derived, whatever the number of workers. Every slot that a worker fills was allocated, none is
filled twice or left empty, no change asks for a value that it has none for, and no worker is lost.
So no broken invariant is ever reported.

## Main definitions

* `Config.Accepts`: what is asked of a schema before its graph is built

## Main results

* `Config.Accepts.exists_compile`: an accepted schema compiles
* `Config.replay_blamesSchema`: a schema that is not accepted is at fault itself
* `Config.compile_total`: compiling succeeds exactly on accepted schemas
-/

namespace SchemaEvolution

/-! ## Blame -/

namespace History

theorem stagesFrom_blamesSchema {catalog : Catalog} {previous : Layouts} {versions : List Version}
    (hprevious : ∀ name, catalog.category? name = some .base → name ∈ previous) :
    BlamesSchema (stagesFrom catalog previous versions) := by
  induction versions generalizing previous with
  | nil => exact .ok _
  | cons version rest ih =>
    refine (Layouts.replayFrom_blamesSchema hprevious hprevious).bind fun out hreplay => ?_
    refine (ih fun name hname => ?_).bind fun _ _ => .ok _
    rw [OrderedMap.mem_iff_mem_keys, Layouts.keys_replay hreplay]
    exact hprevious name hname

theorem ofChain_blamesSchema {definition : Definition} (hd : definition.Sound) (chain : Chain) :
    BlamesSchema (ofChain definition chain) := by
  refine (stagesFrom_blamesSchema fun name hname => ?_).bind fun _ _ => .ok _
  rw [initialLayouts, OrderedMap.mem_iff_mem_keys, OrderedMap.keys_map]
  exact hd.base.mp hname

theorem checkFields_blamesSchema (layout : Layout) (type interface : String)
    (fields : List (String × TypeRef)) :
    BlamesSchema (checkFields layout type interface fields) := by
  induction fields with
  | nil => exact .ok ()
  | cons field rest ih =>
    unfold checkFields
    split
    · exact .error rfl
    · split
      · exact ih
      · exact .error rfl

theorem checkImplemented_blamesSchema (definition : Definition) (layout : Layout) (type : String)
    (names : List String) : BlamesSchema (checkImplemented definition layout type names) := by
  induction names with
  | nil => exact .ok ()
  | cons name rest ih =>
    unfold checkImplemented
    split
    · exact .error rfl
    · exact (checkFields_blamesSchema _ _ _ _).bind fun _ _ => ih

theorem checkInterfaces_blamesSchema (history : History) (definition : Definition)
    (version : Nat) : BlamesSchema (history.checkInterfaces definition version) := by
  unfold checkInterfaces
  induction definition.baseTypes.entries with
  | nil => exact .ok ()
  | cons entry rest ih =>
    unfold checkTypes
    split
    · exact ih
    · exact (checkImplemented_blamesSchema _ _ _ _).bind fun _ _ => ih

end History

namespace Config

variable {config : Config} {replayed : Replayed}

/-- **A schema that cannot be replayed is at fault itself.** -/
theorem replay_blamesSchema (config : Config) : BlamesSchema config.replay := by
  refine (Definition.ofConfig_blamesSchema config).bind fun definition hdefinition => ?_
  refine (Chain.ofDefinition_blamesSchema definition).bind fun chain _ => ?_
  exact (History.ofChain_blamesSchema (Definition.sound_of_ofConfig hdefinition) chain).bind
    fun _ _ => .ok _

/-! ## Success -/

/-- **What is asked of a schema**: it is resolved, its versions form a chain, its transformations
can be replayed, and its base types have the fields of their interfaces at the current version. -/
structure Accepts (config : Config) (replayed : Replayed) : Prop where
  definition : Definition.ofConfig config = .ok replayed.definition
  chain : Chain.ofDefinition replayed.definition = .ok replayed.chain
  history : History.ofChain replayed.definition replayed.chain = .ok replayed.history
  interfaces : replayed.history.checkInterfaces replayed.definition replayed.chain.currentIndex =
    .ok ()

theorem accepts_iff : config.Accepts replayed ↔ config.replay = .ok replayed ∧
    replayed.history.checkInterfaces replayed.definition replayed.chain.currentIndex = .ok () := by
  constructor
  · intro h
    exact ⟨bind_eq_ok.mpr ⟨_, h.definition, bind_eq_ok.mpr ⟨_, h.chain,
      bind_eq_ok.mpr ⟨_, h.history, rfl⟩⟩⟩, h.interfaces⟩
  · rintro ⟨h, hinterfaces⟩
    obtain ⟨definition, hdefinition, h⟩ := bind_eq_ok.mp h
    obtain ⟨chain, hchain, h⟩ := bind_eq_ok.mp h
    obtain ⟨history, hhistory, h⟩ := bind_eq_ok.mp h
    obtain rfl := Except.ok.inj h
    exact ⟨hdefinition, hchain, hhistory, hinterfaces⟩

/-- **An accepted schema compiles**, and no access leads out of its graph or its chain. -/
theorem Accepts.exists_compile (h : config.Accepts replayed) (workers : Nat) :
    ∃ graph plan, Graph.build workers replayed.definition replayed.chain replayed.history =
        .ok graph ∧
      UpgradePlan.derive workers replayed.chain replayed.history graph = .ok plan ∧
      config.compile workers =
        .ok ⟨replayed.definition, replayed.chain, replayed.history, graph, plan⟩ ∧
      graph.InRange ∧ ∀ path ∈ plan.paths, ∃ label, path.source.version = some label ∧
        label + 1 < replayed.chain.size := by
  obtain ⟨hreplay, hinterfaces⟩ := accepts_iff.mp h
  have hr := Replayed.sound_of_replay hreplay
  obtain ⟨graph, hgraph, hg⟩ := hr.exists_build workers
  obtain ⟨plan, hplan⟩ := hg.exists_derive hr workers
  refine ⟨graph, plan, hgraph, hplan, ?_, hg.inRange, fun path hpath => ?_⟩
  · exact bind_eq_ok.mpr ⟨replayed, hreplay, bind_eq_ok.mpr ⟨(), hinterfaces,
      bind_eq_ok.mpr ⟨graph, hgraph, bind_eq_ok.mpr ⟨plan, hplan, rfl⟩⟩⟩⟩
  · obtain ⟨-, hpaths⟩ := UpgradePlan.exists_node_of_mem hplan
    obtain ⟨node, id, -, hneeds, hderived⟩ := hpaths path hpath
    obtain ⟨label, hlabel, hbefore⟩ := Derivation.exists_label_of_needsPath hneeds
    obtain ⟨next, -, -, hsource, -⟩ := Derivation.path_eq_ok hderived
    rw [hg.current_eq] at hbefore
    exact ⟨label, by rw [hsource]; exact hlabel, by omega⟩

theorem accepts_of_compile {workers : Nat} {c : Compilation} (h : config.compile workers = .ok c) :
    config.Accepts c.schema := by
  obtain ⟨replayed, hreplay, h⟩ := bind_eq_ok.mp h
  obtain ⟨⟨⟩, hinterfaces, h⟩ := bind_eq_ok.mp h
  obtain ⟨graph, hgraph, h⟩ := bind_eq_ok.mp h
  obtain ⟨plan, hplan, h⟩ := bind_eq_ok.mp h
  obtain rfl := Except.ok.inj h
  exact accepts_iff.mpr ⟨hreplay, hinterfaces⟩

theorem build_of_compile {workers : Nat} {c : Compilation} (h : config.compile workers = .ok c) :
    Graph.build workers c.definition c.chain c.history = .ok c.graph := by
  obtain ⟨graph, plan, hgraph, -, hcompile, -⟩ := (accepts_of_compile h).exists_compile workers
  have hsame : c.graph = graph :=
    congrArg Compilation.graph (Except.ok.inj (h.symm.trans hcompile))
  rw [hsame]
  exact hgraph

/-- **Compiling fails by the fault of the schema only.** On an accepted schema the graph is built
and the upgrades are derived, whatever the number of workers, with every id inside the graph and
every version inside the chain. Compiling succeeds exactly on accepted schemas, and no error that
it reports is a broken invariant. -/
theorem compile_total (config : Config) (workers : Nat) :
    (∀ replayed, config.Accepts replayed →
      ∃ graph plan, Graph.build workers replayed.definition replayed.chain replayed.history =
          .ok graph ∧
        UpgradePlan.derive workers replayed.chain replayed.history graph = .ok plan ∧
        config.compile workers =
          .ok ⟨replayed.definition, replayed.chain, replayed.history, graph, plan⟩ ∧
        graph.InRange ∧ ∀ path ∈ plan.paths, ∃ label, path.source.version = some label ∧
          label + 1 < replayed.chain.size) ∧
    ((∃ c, config.compile workers = .ok c) ↔ ∃ replayed, config.Accepts replayed) ∧
    ∀ e, config.compile workers = .error e → e.blamesCompiler = false := by
  refine ⟨fun replayed h => h.exists_compile workers, ⟨?_, ?_⟩, ?_⟩
  · rintro ⟨c, hc⟩
    exact ⟨c.schema, accepts_of_compile hc⟩
  · rintro ⟨replayed, h⟩
    obtain ⟨graph, plan, -, -, hcompile, -⟩ := h.exists_compile workers
    exact ⟨_, hcompile⟩
  · refine (replay_blamesSchema config).bind fun replayed hreplay => ?_
    refine (History.checkInterfaces_blamesSchema _ _ _).bind fun _ hinterfaces => ?_
    obtain ⟨graph, plan, hgraph, hplan, -⟩ :=
      (accepts_iff.mpr ⟨hreplay, hinterfaces⟩).exists_compile workers
    exact (BlamesSchema.of_eq_ok hgraph).bind fun graph' hgraph' => by
      obtain rfl := Except.ok.inj (hgraph.symm.trans hgraph')
      exact (BlamesSchema.of_eq_ok hplan).bind fun _ _ => .ok _

theorem compile_total_sample : ∃ replayed graph plan, Config.sample.Accepts replayed ∧
    Graph.build 1 replayed.definition replayed.chain replayed.history = .ok graph ∧
      UpgradePlan.derive 1 replayed.chain replayed.history graph = .ok plan := by
  obtain ⟨htotal, hiff, -⟩ := compile_total Config.sample 1
  obtain ⟨c, -, hc, -⟩ := exists_compile_sample
  obtain ⟨replayed, haccepts⟩ := hiff.mp ⟨c, hc⟩
  obtain ⟨graph, plan, hgraph, hplan, -⟩ := htotal replayed haccepts
  exact ⟨replayed, graph, plan, haccepts, hgraph, hplan⟩

end Config

end SchemaEvolution

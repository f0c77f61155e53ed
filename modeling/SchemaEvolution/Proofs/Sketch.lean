import SchemaEvolution.Compilation
import SchemaEvolution.Proofs.Index
import SchemaEvolution.Proofs.Workers

/-!
# Slots that are written in order

Every slot of the arena is written once, by the job that it was reserved for, and so is every slot
for an upgrade path. None is missing and none is written again, whatever the number of workers. So a
graph is built as if its nodes were appended one after the other, and a plan as if its paths were.

## Main definitions

* `Slots.filled`: slots of which the first ones are written
* `Sketch`: a graph as far as it is built, with its nodes in a row
* `Sketch.reserve`, `Sketch.extend`, `Sketch.walkBack`: the walk back, with nodes that are appended

## Main results

* `Slots.foldlM_filled`: jobs that write one slot after the other
* `Draft.outcome_reserve`: the slots of one more version follow those that are written
* `Draft.extend_draft`, `Draft.walkBack_draft`: the arena holds the nodes of the sketch
* `Graph.build_eq`, `UpgradePlan.derive_eq`: a graph and a plan without slots
* `Config.compile_workers`: a schema compiles to the same with any number of workers
-/

namespace SchemaEvolution

universe u v w

namespace Slots

variable {α : Type u} {ι : Type v} {ε : Type w} {values : List α} {more : Nat}

/-- **Slots of which the first ones are written**, with a number of others behind them. -/
def filled (values : List α) (more : Nat) : Slots α :=
  ⟨(values.map some ++ List.replicate more none).toArray⟩

theorem ofSize_eq_filled (size : Nat) : (ofSize size : Slots α) = filled [] size := by
  rw [ofSize, filled, List.map_nil, List.nil_append, List.toArray_replicate]

theorem alloc_filled :
    (filled values more).alloc = (values.length + more, filled values (more + 1)) := by
  simp [alloc, filled, size, List.replicate_succ']

theorem fill_filled (value : α) :
    (filled values (more + 1)).fill values.length value =
      .ok (filled (values ++ [value]) more) := by
  have hcell : (filled values (more + 1)).cells[values.length]? = some none := by
    simp [filled]
  have hset : (filled values (more + 1)).cells.setIfInBounds values.length (some value) =
      (filled (values ++ [value]) more).cells := by
    simp [filled, List.replicate_succ]
  rw [fill, hcell]
  dsimp only
  rw [hset]

theorem valuesFrom_map_some {missing : Nat → ε} (values : List α) (place : Nat) :
    valuesFrom missing place (values.map some) = .ok values := by
  induction values generalizing place with
  | nil => rfl
  | cons value rest ih =>
    rw [List.map_cons, valuesFrom, ih]
    rfl

theorem values_filled {missing : Nat → ε} (values : List α) :
    (filled values 0).values missing = .ok values := by
  have hcells : (filled values 0).cells.toList = values.map some := by simp [filled]
  rw [Slots.values, hcells, valuesFrom_map_some]

/-- **Jobs that write one slot after the other** fill all slots with what they come to. -/
theorem foldlM_filled {put : ι × Nat → Slots α → Except ε (Slots α)} {job : ι × Nat → Except ε α}
    (hput : ∀ item (values : List α) more, put (item, values.length) (filled values (more + 1)) =
      (job (item, values.length)).map fun value => filled (values ++ [value]) more)
    (items : List ι) (values : List α) :
    (items.zipIdx values.length).foldlM (fun slots item => put item slots)
        (filled values items.length) =
      ((items.zipIdx values.length).mapM job).map fun found => filled (values ++ found) 0 := by
  induction items generalizing values with
  | nil => simp [pure, Except.pure, Except.map]
  | cons item rest ih =>
    rw [List.zipIdx_cons, List.foldlM_cons, List.length_cons, hput, List.mapM_cons]
    cases job (item, values.length) with
    | error e => rfl
    | ok value =>
      have hlater := ih (values ++ [value])
      rw [List.length_append, List.length_singleton] at hlater
      refine hlater.trans ?_
      rw [ok_bind]
      cases (rest.zipIdx (values.length + 1)).mapM job with
      | error e => rfl
      | ok found => simp [Except.map, bind, Except.bind, pure, Except.pure]

end Slots

/-! ## Nodes in a row -/

/-- **The graph as far as it is built**, with its nodes in a row. -/
structure Sketch where
  nodes : Array Node
  index : Index
  /-- The changed types of the versions that are built, the earliest first. -/
  changed : List NameSet

namespace Sketch

/-- Ids for the names that get a new node, from `next` on, and the shared nodes of all other names,
entered into the index at a version. -/
def reserve (version : Nat) (isNew : String → Bool) :
    (names : List String) → (next : NodeId) → Index →
      Except SchemaError (List (String × NodeId) × Index)
  | [], _, index => .ok ([], index)
  | name :: names, next, index =>
    if isNew name then do
      let index ← index.bind name version next
      let (jobs, index) ← reserve version isNew names (next + 1) index
      return ((name, next) :: jobs, index)
    else do
      let found ← index.resolveOrBind name version fun _ => index.resolve name (version + 1)
      reserve version isNew names next found.index

/-- The graph with the nodes of one more version. -/
def extend (blueprint : Blueprint) (version : Nat) (isNew : String → Bool) (changed : NameSet)
    (sketch : Sketch) : Except SchemaError Sketch := do
  let (jobs, index) ← reserve version isNew blueprint.names sketch.nodes.size sketch.index
  let nodes ← jobs.mapM (blueprint.node index version)
  return ⟨sketch.nodes ++ nodes.toArray, index, changed :: sketch.changed⟩

/-- The graph with the nodes of all versions before `version`, the last of them first. -/
def walkBack (blueprint : Blueprint) : (version : Nat) → Sketch → Except SchemaError Sketch
  | 0, sketch => .ok sketch
  | version + 1, sketch => do
    let seed := ((blueprint.history.snapshots version).filter Snapshot.differsFromNext).map
      Snapshot.type
    let closed := sketch.index.closure (version + 1) seed
    let sketch ← sketch.extend blueprint version (fun name => decide (name ∈ closed)) closed
    walkBack blueprint version sketch

/-- The sketch with a slot for each node. -/
def draft (sketch : Sketch) : Draft := ⟨.filled sketch.nodes.toList 0, sketch.index, sketch.changed⟩

/-- New names get the next ids in order. -/
theorem reserve_jobs {version : Nat} {isNew : String → Bool} {names : List String} {next : NodeId}
    {index : Index} {reserved : List (String × NodeId) × Index}
    (h : reserve version isNew names next index = .ok reserved) :
    reserved.1 = (names.filter isNew).zipIdx next := by
  induction names generalizing next index reserved with
  | nil =>
    obtain rfl := Except.ok.inj h
    rfl
  | cons name rest ih =>
    rw [reserve] at h
    split at h
    · rename_i hnew
      obtain ⟨entered, -, h⟩ := bind_eq_ok.mp h
      obtain ⟨later, hlater, h⟩ := bind_eq_ok.mp h
      obtain rfl := Except.ok.inj h
      rw [List.filter_cons_of_pos hnew, List.zipIdx_cons, ← ih hlater]
    · rename_i hold
      obtain ⟨found, -, h⟩ := bind_eq_ok.mp h
      rw [List.filter_cons_of_neg hold, ih h]

end Sketch

namespace Index

variable {name : String} {version : Nat} {index : Index}

theorem outcome_enter (id : NodeId) : (enter name version id).outcome index =
    (index.bind name version id).map fun index => ((), index) := by
  rw [Index.bind]
  cases (enter name version id).outcome index <;> rfl

theorem outcome_resolveOrEnter (compute : Unit → Except SchemaError NodeId) :
    (resolveOrEnter name version compute).outcome index =
      (index.resolveOrBind name version compute).map fun found =>
        ((found.node, found.computed), found.index) := by
  rw [resolveOrBind]
  cases (resolveOrEnter name version compute).outcome index <;> rfl

end Index

/-! ## The arena -/

namespace Draft

/-- **The slots of one more version** follow those that are written, in the order of the names. -/
theorem outcome_reserve (version : Nat) (isNew : String → Bool) (names : List String)
    (nodes : List Node) (more : Nat) (index : Index) :
    (reserve version isNew names (.filled nodes more)).outcome index =
      (Sketch.reserve version isNew names (nodes.length + more) index).map fun (jobs, index) =>
        ((jobs, .filled nodes (more + jobs.length)), index) := by
  induction names generalizing more index with
  | nil => rfl
  | cons name rest ih =>
    rw [reserve, Sketch.reserve]
    split
    · rw [Slots.alloc_filled]
      dsimp only
      rw [Index.Action.outcome_bind, Index.outcome_enter]
      cases index.bind name version (nodes.length + more) with
      | error e => rfl
      | ok index =>
        have hlater := ih (more + 1) index
        rw [ok_bind, Nat.add_assoc]
        change Index.Action.outcome _ index = _
        rw [Index.Action.outcome_bind, hlater]
        cases Sketch.reserve version isNew rest (nodes.length + (more + 1)) index with
        | error e => rfl
        | ok reserved =>
          obtain ⟨jobs, index⟩ := reserved
          have hmore : more + 1 + jobs.length = more + (jobs.length + 1) := by omega
          simp only [Except.map, ok_bind, hmore]
          rfl
    · rw [Index.Action.outcome_bind]
      change Index.Action.outcome _ index = _
      rw [Index.Action.outcome_bind, Index.outcome_resolveOrEnter]
      cases index.resolveOrBind name version fun _ => index.resolve name (version + 1) with
      | error e => rfl
      | ok found => exact ih more found.index

/-- A job fills its slot with its node. -/
theorem fill_filled (blueprint : Blueprint) (index : Index) (version : Nat) (name : String)
    (nodes : List Node) (more : Nat) :
    blueprint.fill index version (name, nodes.length) (.filled nodes (more + 1)) =
      (blueprint.node index version (name, nodes.length)).map fun node =>
        .filled (nodes ++ [node]) more := by
  rw [Blueprint.fill, Blueprint.node]
  cases blueprint.body index version name with
  | error e => rfl
  | ok kind =>
    rw [ok_bind]
    change Arena.fill _ _ = _
    rw [Arena.fill, Slots.fill_filled]
    rfl

variable (workers : Nat) (blueprint : Blueprint)

/-- **One more version**: the arena holds the nodes of the sketch. -/
theorem extend_draft (version : Nat) (isNew : String → Bool) (changed : NameSet)
    (sketch : Sketch) : sketch.draft.extend workers blueprint version isNew changed =
      (sketch.extend blueprint version isNew changed).map Sketch.draft := by
  unfold extend Sketch.extend
  have hreserve := outcome_reserve version isNew blueprint.names sketch.nodes.toList 0 sketch.index
  rw [Nat.add_zero, Array.length_toList] at hreserve
  change (Index.Action.outcome
    (reserve version isNew blueprint.names (.filled sketch.nodes.toList 0)) sketch.index >>= _) = _
  rw [hreserve]
  cases hjobs : Sketch.reserve version isNew blueprint.names sketch.nodes.size sketch.index with
  | error e => rfl
  | ok reserved =>
    obtain ⟨jobs, index⟩ := reserved
    have hplaces : jobs = (blueprint.names.filter isNew).zipIdx sketch.nodes.toList.length := by
      rw [Array.length_toList]
      exact Sketch.reserve_jobs hjobs
    simp only [Except.map, ok_bind, Workers.settle_forEach, Workers.settle_step, Nat.zero_add]
    rw [hplaces, List.length_zipIdx,
      Slots.foldlM_filled fun name nodes more =>
        fill_filled blueprint index version name nodes more]
    cases ((blueprint.names.filter isNew).zipIdx sketch.nodes.toList.length).mapM
      (blueprint.node index version) with
    | error e => rfl
    | ok nodes =>
      simp [Except.map, ok_bind, Sketch.draft, pure, Except.pure]

theorem walkBack_draft (version : Nat) (sketch : Sketch) :
    sketch.draft.walkBack workers blueprint version =
      (sketch.walkBack blueprint version).map Sketch.draft := by
  induction version generalizing sketch with
  | zero => rfl
  | succ version ih =>
    rw [walkBack, Sketch.walkBack, extend_draft]
    exact map_bind_eq_map ih

end Draft

/-! ## The graph and the plan -/

/-- **A graph is built as if its nodes were appended** one after the other. -/
theorem Graph.build_eq (workers : Nat) (definition : Definition) (chain : Chain)
    (history : History) : build workers definition chain history = (do
      if chain.size = 0 || history.size != chain.size then
        throw (.internal
          s!"layout history covers {history.size} versions but the chain has {chain.size}")
      let current := chain.size - 1
      let blueprint := Blueprint.ofDefinition definition chain history
      let empty : Sketch := ⟨#[], .ofReferences ((List.range chain.size).map blueprint.row), []⟩
      let sketch ← empty.extend blueprint current (fun _ => true) ∅
      let sketch ← sketch.walkBack blueprint current
      let graph : Graph := ⟨sketch.nodes, sketch.index, sketch.changed⟩
      graph.checkDiscriminants graph.nodes.toList
      return graph) := by
  unfold build
  split
  · rfl
  · have hempty : (⟨.ofSize 0, .ofReferences ((List.range chain.size).map
        (Blueprint.ofDefinition definition chain history).row), []⟩ : Draft) = Sketch.draft
          ⟨#[], .ofReferences ((List.range chain.size).map
            (Blueprint.ofDefinition definition chain history).row), []⟩ := by
      rw [Slots.ofSize_eq_filled]
      rfl
    dsimp only
    rw [hempty, Draft.extend_draft]
    cases Sketch.extend (Blueprint.ofDefinition definition chain history) (chain.size - 1)
      (fun _ => true) ∅ ⟨#[], .ofReferences ((List.range chain.size).map
        (Blueprint.ofDefinition definition chain history).row), []⟩ with
    | error e => rfl
    | ok sketch =>
      change (Draft.walkBack _ _ _ sketch.draft >>= _) = (Sketch.walkBack _ _ sketch >>= _)
      rw [Draft.walkBack_draft]
      cases sketch.walkBack _ _ with
      | error e => rfl
      | ok sketch =>
        change (Arena.nodes (.filled sketch.nodes.toList 0) >>= _) = _
        rw [Arena.nodes, Slots.values_filled]
        rfl

/-- A job fills its slot with its path. -/
theorem Derivation.fillSlot_filled (source : Derivation) (node : Node) (paths : List UpgradePath)
    (more : Nat) : source.fillSlot (node, paths.length) (.filled paths (more + 1)) =
      (source.path node).map fun path => .filled (paths ++ [path]) more := by
  rw [fillSlot]
  cases source.path node with
  | error e => rfl
  | ok path =>
    rw [ok_bind, Slots.fill_filled]
    rfl

/-- The jobs for paths fill all slots with the paths. -/
theorem Derivation.foldlM_fillSlot (source : Derivation) (jobs : List Node) :
    jobs.zipIdx.foldlM (fun slots job => source.fillSlot job slots) (.ofSize jobs.length) =
      (jobs.mapM source.path).map fun paths => .filled paths 0 := by
  have hnumbered : jobs.zipIdx.mapM (fun job => source.path job.1) = jobs.mapM source.path := by
    have hmap := List.mapM_map (f := Prod.fst) (g := source.path) (l := jobs.zipIdx)
    rw [List.zipIdx_map_fst] at hmap
    exact hmap.symm
  rw [Slots.ofSize_eq_filled, ← hnumbered]
  have hput : ∀ (node : Node) (paths : List UpgradePath) more,
      source.fillSlot (node, paths.length) (.filled paths (more + 1)) =
        ((fun job : Node × Nat => source.path job.1) (node, paths.length)).map fun path =>
          .filled (paths ++ [path]) more := source.fillSlot_filled
  exact Slots.foldlM_filled hput jobs []

/-- **A plan is derived as if its paths were appended** one after the other. -/
theorem UpgradePlan.derive_eq (workers : Nat) (chain : Chain) (history : History) (graph : Graph) :
    derive workers chain history graph = (do
      let references := CodeRef.registry chain
      let source : Derivation := ⟨chain, history, graph, references⟩
      let jobs := (graph.nodes.toList.filter (Derivation.needsPath graph.current)).mergeSort
        Derivation.precedes
      let paths ← jobs.mapM source.path
      return ⟨references, paths⟩) := by
  simp only [derive, Workers.settle_forEach, Workers.settle_step, Derivation.foldlM_fillSlot]
  cases ((graph.nodes.toList.filter (Derivation.needsPath graph.current)).mergeSort
    Derivation.precedes).mapM (Derivation.path ⟨chain, history, graph, CodeRef.registry chain⟩) with
  | error e => rfl
  | ok paths =>
    simp only [Except.map, ok_bind, Slots.values_filled]

/-- **A schema compiles to the same** with any number of workers. -/
theorem Config.compile_workers (workers workers' : Nat) (config : Config) :
    config.compile workers = config.compile workers' := by
  simp only [compile, Graph.build_eq, UpgradePlan.derive_eq]

end SchemaEvolution

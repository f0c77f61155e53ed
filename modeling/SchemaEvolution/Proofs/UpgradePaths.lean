import SchemaEvolution.Proofs.Derive
import SchemaEvolution.Proofs.Labels

/-!
# Every old instance can be upgraded

The paths of a type lead from each of its labels to the next one, without a gap and without a
second path between two labels. Whichever version an instance is of, following paths ends at the
current version, after the steps of the upgrade chain.

## Main definitions

* `Identity.Precedes`: the order of paths, by version and then by name
* `Replayed.IsUpgradable`: base and super types are the types with paths
* `UpgradePath.Connects`: what a path leads from and to
* `UpgradePlan.Follows`: the identities that the paths of a plan lead through

## Main results

* `Compilation.pairwise_paths`: a plan is strictly sorted
* `Compilation.exists_connects`, `Compilation.exists_path_of_affected`: the paths of a plan are
  those from labels to labels
* `Compilation.follows_of_labelAt`: paths are followed along the upgrade chain
* `Compilation.paths_complete`: every old instance can be upgraded, in exactly one way
-/

namespace SchemaEvolution

/-! ## The order of paths -/

/-- **The order of paths**: by version, then by name. -/
def Identity.Precedes (first second : Identity) : Prop :=
  ∃ label label', first.version = some label ∧ second.version = some label' ∧
    (label < label' ∨ label = label' ∧ first.name < second.name)

theorem Identity.Precedes.ne {first second : Identity} (h : first.Precedes second) :
    first ≠ second := by
  rintro rfl
  obtain ⟨label, label', hlabel, hlabel', horder⟩ := h
  obtain rfl := Option.some.inj (hlabel.symm.trans hlabel')
  rcases horder with hlt | ⟨-, hlt⟩
  · exact Nat.lt_irrefl label hlt
  · exact String.lt_irrefl _ hlt

namespace Derivation

theorem precedes_iff {first second : Node} : precedes first second = true ↔
    first.version.getD 0 < second.version.getD 0 ∨
      first.version.getD 0 = second.version.getD 0 ∧ first.name ≤ second.name := by
  simp [precedes]

theorem precedes_trans (first second third : Node) (h : precedes first second = true)
    (h' : precedes second third = true) : precedes first third = true := by
  rw [precedes_iff] at *
  rcases h with hlt | ⟨heq, hle⟩ <;> rcases h' with hlt' | ⟨heq', hle'⟩
  · exact .inl (by omega)
  · exact .inl (by omega)
  · exact .inl (by omega)
  · exact .inr ⟨by omega, String.le_trans hle hle'⟩

theorem precedes_total (first second : Node) :
    (precedes first second || precedes second first) = true := by
  rw [Bool.or_eq_true, precedes_iff, precedes_iff]
  rcases Nat.lt_trichotomy (first.version.getD 0) (second.version.getD 0) with hlt | heq | hgt
  · exact .inl (.inl hlt)
  · rcases String.le_total first.name second.name with hle | hge
    · exact .inl (.inr ⟨heq, hle⟩)
    · exact .inr (.inr ⟨heq.symm, hge⟩)
  · exact .inr (.inl hgt)

/-- The order of nodes that need paths is strict on their identities. -/
theorem precedes_identity {current : Nat} {first second : Node}
    (h : needsPath current first = true) (h' : needsPath current second = true)
    (horder : precedes first second = true) (hne : first.identity ≠ second.identity) :
    first.identity.Precedes second.identity := by
  obtain ⟨label, hlabel, -⟩ := exists_label_of_needsPath h
  obtain ⟨label', hlabel', -⟩ := exists_label_of_needsPath h'
  rw [precedes_iff, hlabel, hlabel', Option.getD_some, Option.getD_some] at horder
  refine ⟨label, label', hlabel, hlabel', horder.imp_right fun ⟨heq, hle⟩ => ⟨heq, ?_⟩⟩
  refine Std.lt_of_le_of_ne hle fun hname => hne ?_
  have hname : first.name = second.name := hname
  rw [Node.identity, Node.identity, hname, hlabel, hlabel', heq]

end Derivation

/-- The nodes that need a path, in the order of their paths. -/
def Graph.jobs (graph : Graph) : List Node :=
  (graph.nodes.toList.filter (Derivation.needsPath graph.current)).mergeSort Derivation.precedes

theorem Graph.mem_jobs_iff {graph : Graph} {node : Node} : node ∈ graph.jobs ↔
    (∃ id : NodeId, graph.nodes[id]? = some node) ∧
      Derivation.needsPath graph.current node = true := by
  rw [Graph.jobs, List.mem_mergeSort, List.mem_filter, List.mem_iff_getElem?]
  simp only [Array.getElem?_toList]

/-- A plan has one path for each node that needs one, in order. -/
theorem UpgradePlan.derive_eq_ok {workers : Nat} {chain : Chain} {history : History}
    {graph : Graph} {plan : UpgradePlan}
    (h : UpgradePlan.derive workers chain history graph = .ok plan) :
    List.Forall₂ (fun node path => Derivation.path ⟨chain, history, graph,
      CodeRef.registry chain⟩ node = .ok path) graph.jobs plan.paths := by
  rw [derive_eq] at h
  obtain ⟨paths, hpaths, h⟩ := bind_eq_ok.mp h
  obtain rfl := Except.ok.inj h
  exact mapM_eq_ok_iff.mp hpaths

/-- **The jobs of a graph are strictly sorted.** -/
theorem Built.pairwise_jobs {replayed : Replayed} {graph : Graph}
    (hg : Built replayed 0 graph.sketch) (hr : replayed.Sound) :
    graph.jobs.Pairwise fun first second => first.identity.Precedes second.identity := by
  -- no two nodes have one identity, so none of the sorted nodes are equal in the order
  have hdistinct : graph.nodes.toList.Pairwise fun first second =>
      first.identity ≠ second.identity := List.pairwise_map.mp (hg.nodup_identities hr)
  have hne : graph.jobs.Pairwise fun first second => first.identity ≠ second.identity :=
    ((List.mergeSort_perm _ _).pairwise_iff fun hne => hne.symm).mpr (hdistinct.filter _)
  have hsorted : graph.jobs.Pairwise fun first second =>
      Derivation.precedes first second = true :=
    List.pairwise_mergeSort Derivation.precedes_trans Derivation.precedes_total _
  refine (hne.and hsorted).imp_of_mem fun hfirst hsecond hboth => ?_
  exact Derivation.precedes_identity (Graph.mem_jobs_iff.mp hfirst).2
    (Graph.mem_jobs_iff.mp hsecond).2 hboth.2 hboth.1

/-! ## Types with paths -/

/-- Base and super types are the types with paths. -/
def Replayed.IsUpgradable (replayed : Replayed) (type : String) : Prop :=
  replayed.definition.catalog.category? type = some .base ∨
    replayed.definition.catalog.category? type = some .super

namespace Replayed.IsUpgradable

variable {replayed : Replayed} {type : String}

theorem mem_names (h : replayed.IsUpgradable type) : type ∈ replayed.blueprint.names :=
  h.elim mem_names_of_category mem_names_of_category

theorem evolves (h : replayed.IsUpgradable type) : replayed.blueprint.evolves type = true :=
  h.elim (fun h => evolves_of_category h) fun h => evolves_of_category h

end Replayed.IsUpgradable

/-- The nodes with paths are those of base and super types that are not current. -/
theorem Built.needsPath_iff {replayed : Replayed} {graph : Graph}
    (hg : Built replayed 0 graph.sketch) {id : NodeId} {node : Node}
    (hget : graph.nodes[id]? = some node) :
    Derivation.needsPath graph.current node = true ↔ replayed.IsUpgradable node.name ∧
      ∃ label, node.version = some label ∧ label + 1 < replayed.chain.size := by
  obtain ⟨version, hv, hnode, -⟩ := hg.exists_owner hget
  obtain ⟨-, -, hrep⟩ := hg.represents_of_nodeAt hnode
  have hcurrent := hg.current_eq
  constructor
  · intro hneeds
    obtain ⟨label, hlabel, hbefore⟩ := Derivation.exists_label_of_needsPath hneeds
    refine ⟨?_, label, hlabel, by omega⟩
    have hkind := hrep.kind
    unfold Derivation.needsPath at hneeds
    split at hneeds
    · rename_i fields hbase
      rw [hbase] at hkind
      exact .inl (Replayed.base_of_describes hkind)
    · rename_i members hsuper
      rw [hsuper] at hkind
      cases hkind with
      | super hentry => exact .inr (Replayed.entry_declared_iff.mp hentry)
    · cases hneeds
  · rintro ⟨htype, label, hlabel, hbefore⟩
    have hlt : label < graph.current := by omega
    rcases htype with hbase | hsuper
    · obtain ⟨-, fields, -, hkind, -⟩ :=
        hrep.kind.exists_base (Replayed.entry_declared_iff.mpr hbase)
      simp [Derivation.needsPath, hkind, hlabel, hlt]
    · obtain ⟨members, hkind, -⟩ :=
        hrep.kind.exists_super (Replayed.entry_declared_iff.mpr hsuper)
      simp [Derivation.needsPath, hkind, hlabel, hlt]

/-! ## What paths lead from and to -/

/-- **What a path leads from and to**: from a label of its type to the next one. -/
structure UpgradePath.Connects (replayed : Replayed) (path : UpgradePath) (label next : Nat) :
    Prop where
  source : path.source = ⟨path.type, some label⟩
  target : path.target = ⟨path.type, some next⟩
  type : replayed.IsUpgradable path.type
  lt_size : label + 1 < replayed.chain.size
  affected : replayed.Affected label path.type
  follows : replayed.LabelAt (label + 1) path.type next

/-- The path of a node leads to the next label of its type. -/
theorem Built.connects_of_path {replayed : Replayed} {graph : Graph}
    (hg : Built replayed 0 graph.sketch) {node : Node} (hnode : node ∈ graph.jobs)
    {path : UpgradePath} (h : (replayed.derivation graph).path node = .ok path) :
    ∃ label next, path.Connects replayed label next := by
  obtain ⟨⟨id, hget⟩, hneeds⟩ := Graph.mem_jobs_iff.mp hnode
  obtain ⟨htype, label, hlabel, hbefore⟩ := (hg.needsPath_iff hget).mp hneeds
  obtain ⟨later, hlater, hname, hsource, htarget, -⟩ := Derivation.path_eq_ok h
  obtain ⟨-, hown⟩ := hg.nodeAt_label hget hlabel
  obtain ⟨last, hlast⟩ : ∃ last, replayed.LabelAt label node.name last :=
    Replayed.exists_labelAt (Nat.lt_of_succ_lt hbefore) node.name
  have hversion := hg.version_eq_of_labelAt hown hlast
  rw [if_pos htype.evolves, hlabel] at hversion
  obtain rfl := Option.some.inj hversion
  have haffected : replayed.Affected label node.name :=
    hlast.ends.resolve_left (Nat.ne_of_lt hbefore)
  obtain ⟨later', next, hnode', hnext, hidentity⟩ :=
    hg.exists_nodeAt_labelAt hbefore htype.mem_names htype.evolves
  have hcurrent := hg.current_eq
  obtain ⟨found, hfound, hfoundNode⟩ := hg.exists_successor hget hlabel (by omega)
  obtain rfl := Option.some.inj (Except.ok.inj (hlater.symm.trans hfound))
  obtain rfl := Except.ok.inj (hnode'.symm.trans hfoundNode)
  refine ⟨label, next, ?_, ?_, ?_, hbefore, ?_, ?_⟩
  · rw [hsource, Node.identity, hname, hlabel]
  · rw [htarget, hidentity, hname]
  · rwa [hname]
  · rwa [hname]
  · rwa [hname]

namespace Compilation

variable {c : Compilation} {type : String} {label next : Nat} {path : UpgradePath}
  (hc : c.Sound)

include hc

/-- There is one path for each job, in order. -/
theorem forall₂_jobs : List.Forall₂ (fun node path =>
    (c.schema.derivation c.graph).path node = .ok path) c.graph.jobs c.plan.paths := by
  obtain ⟨workers, hplan⟩ := hc.plan
  exact UpgradePlan.derive_eq_ok hplan

/-- **A plan is strictly sorted**, by source version and type name. -/
theorem pairwise_paths :
    c.plan.paths.Pairwise fun path later => path.source.Precedes later.source := by
  have hsources : c.graph.jobs.map Node.identity = c.plan.paths.map UpgradePath.source :=
    map_eq_map_of_forall₂ (forall₂_jobs hc) fun node path h => by
      obtain ⟨-, -, -, hsource, -⟩ := Derivation.path_eq_ok h
      exact hsource.symm
  have hjobs := List.pairwise_map.mpr (hc.graph.pairwise_jobs hc.schema)
  rw [hsources] at hjobs
  exact List.pairwise_map.mp hjobs

/-- **Every path leads from a label to the next one.** -/
theorem exists_connects (hpath : path ∈ c.plan.paths) :
    ∃ label next, path.Connects c.schema label next := by
  obtain ⟨node, hnode, hderived⟩ := exists_left_of_forall₂ (forall₂_jobs hc) hpath
  exact hc.graph.connects_of_path hnode hderived

/-- **Every label behind which the type changes has a path.** -/
theorem exists_path_of_affected (htype : c.schema.IsUpgradable type)
    (hv : label + 1 < c.schema.chain.size) (haffected : c.schema.Affected label type) :
    ∃ path ∈ c.plan.paths, path.type = type ∧ path.source = ⟨type, some label⟩ := by
  obtain ⟨node, label', hnode, hlabel, hidentity⟩ :=
    hc.graph.exists_nodeAt_labelAt (Nat.lt_of_succ_lt hv) htype.mem_names htype.evolves
  obtain rfl := hlabel.unique (.of_affected (Nat.lt_of_succ_lt hv) haffected)
  obtain ⟨hname, hversion⟩ := Identity.mk.inj hidentity
  obtain ⟨id, -, hget⟩ := Graph.nodeAt_eq_ok_iff.mp hnode
  have hneeds := (hc.graph.needsPath_iff hget).mpr ⟨hname ▸ htype, label', hversion, hv⟩
  obtain ⟨path, hpath, hderived⟩ := exists_right_of_forall₂ (forall₂_jobs hc)
    (Graph.mem_jobs_iff.mpr ⟨⟨id, hget⟩, hneeds⟩)
  obtain ⟨-, -, htypes, hsource, -⟩ := Derivation.path_eq_ok hderived
  exact ⟨path, hpath, htypes.trans hname, hsource.trans hidentity⟩

/-- **No two paths have the same source.** -/
theorem source_inj {other : UpgradePath} (hpath : path ∈ c.plan.paths)
    (hother : other ∈ c.plan.paths) (hsame : path.source = other.source) : path = other := by
  have hdistinct : (c.plan.paths.map UpgradePath.source).Nodup :=
    List.pairwise_map.mpr ((pairwise_paths hc).imp Identity.Precedes.ne)
  exact List.inj_on_of_nodup_map hdistinct hpath hother hsame

/-- A path is found by its type and its label. -/
theorem path?_eq_some_iff : c.plan.path? type label = some path ↔
    path ∈ c.plan.paths ∧ path.source = ⟨type, some label⟩ := by
  have hfound : ∀ {found}, c.plan.path? type label = some found →
      found ∈ c.plan.paths ∧ found.source = ⟨type, some label⟩ := by
    intro found h
    have hmem := List.mem_of_find?_eq_some h
    obtain ⟨start, next, hconnects⟩ := exists_connects hc hmem
    have hboth := List.find?_some h
    rw [Bool.and_eq_true, beq_iff_eq, beq_iff_eq] at hboth
    have hname : found.source.name = found.type := congrArg Identity.name hconnects.source
    exact ⟨hmem, congr (congrArg Identity.mk (hname.trans hboth.1)) hboth.2⟩
  refine ⟨hfound, ?_⟩
  rintro ⟨hpath, hsource⟩
  obtain ⟨start, next, hconnects⟩ := exists_connects hc hpath
  have htype : path.type = type := congrArg Identity.name (hconnects.source.symm.trans hsource)
  have hsome : (c.plan.path? type label).isSome = true := by
    refine List.find?_isSome.mpr ⟨path, hpath, ?_⟩
    rw [htype, hsource, beq_self_eq_true, beq_self_eq_true, Bool.and_self]
  obtain ⟨found, h⟩ := Option.isSome_iff_exists.mp hsome
  obtain ⟨hmem, hsource'⟩ := hfound h
  rw [h, source_inj hc hmem hpath (hsource'.trans hsource.symm)]

end Compilation

/-! ## The paths of a type -/

/-- In a chain where each item is followed by one that it determines, the neighbours are the items
with what they determine. -/
theorem zip_tail_of_isChain {α β : Type} {R : β → β → Prop} {first second : α → β} {last : β}
    {items : List α} (h : (items.map first ++ [last]).IsChain R)
    (hnext : ∀ item ∈ items, ∀ b, R (first item) b → b = second item) :
    (items.map first ++ [last]).zip (items.map first ++ [last]).tail =
      items.map fun item => (first item, second item) := by
  induction items with
  | nil => rfl
  | cons item rest ih =>
    obtain ⟨hitem, hrest⟩ := List.forall_mem_cons.mp hnext
    rw [List.map_cons, List.cons_append, List.isChain_cons] at h
    obtain ⟨hfirst, hchain⟩ := h
    have hlater := ih hchain hrest
    cases hbehind : rest.map first ++ [last] with
    | nil => simp at hbehind
    | cons b bs =>
      rw [hbehind] at hfirst hlater
      have hb : b = second item := hitem b (hfirst b rfl)
      rw [List.map_cons, List.cons_append, hbehind, List.tail_cons, List.zip_cons_cons, hb,
        List.map_cons, ← hlater, hb, List.tail_cons]

theorem UpgradePlan.mem_pathsFor_iff {plan : UpgradePlan} {type : String} {path : UpgradePath} :
    path ∈ plan.pathsFor type ↔ path ∈ plan.paths ∧ path.type = type := by
  rw [UpgradePlan.pathsFor, List.mem_filter, beq_iff_eq]

/-- **Following a plan** from an identity: the identities that its paths lead through, up to one
that has no path. -/
inductive UpgradePlan.Follows (plan : UpgradePlan) : Identity → List Identity → Prop
  | stop {type : String} {label : Nat} (h : plan.path? type label = none) :
      Follows plan ⟨type, some label⟩ []
  | step {type : String} {label : Nat} {path : UpgradePath} {steps : List Identity}
      (h : plan.path? type label = some path) (hsteps : Follows plan path.target steps) :
      Follows plan ⟨type, some label⟩ (path.target :: steps)

namespace Compilation

variable {c : Compilation} {type : String} {v label : Nat} {path : UpgradePath}
  (hc : c.Sound)

include hc

/-- The paths of a type start at the versions behind which it changes, in order. -/
theorem map_pathsFor (htype : c.schema.IsUpgradable type) :
    (c.plan.pathsFor type).map (fun path => path.source.version.getD 0) =
      c.graph.starts type := by
  -- both lists ascend, so it is enough that they have the same members
  have hsources : ((c.plan.pathsFor type).map fun path =>
      path.source.version.getD 0).Pairwise (· < ·) := by
    refine List.pairwise_map.mpr (((pairwise_paths hc).filter _).imp_of_mem ?_)
    intro path later hpath hlater hprecedes
    obtain ⟨hmem, htypes⟩ := UpgradePlan.mem_pathsFor_iff.mp hpath
    obtain ⟨hmem', htypes'⟩ := UpgradePlan.mem_pathsFor_iff.mp hlater
    obtain ⟨start, next, hconnects⟩ := exists_connects hc hmem
    obtain ⟨start', next', hconnects'⟩ := exists_connects hc hmem'
    obtain ⟨label, label', hlabel, hlabel', horder⟩ := hprecedes
    rw [hlabel, hlabel', Option.getD_some, Option.getD_some]
    refine horder.resolve_right fun hname => ?_
    rw [hconnects.source, hconnects'.source, htypes, htypes'] at hname
    exact String.lt_irrefl _ hname.2
  have hstarts : (c.graph.starts type).Pairwise (· < ·) := List.pairwise_lt_range.filter _
  refine hsources.eq_of_mem_iff hstarts fun label => ?_
  rw [hc.graph.mem_starts_iff, List.mem_map]
  constructor
  · rintro ⟨path, hpath, rfl⟩
    obtain ⟨hmem, rfl⟩ := UpgradePlan.mem_pathsFor_iff.mp hpath
    obtain ⟨start, next, hconnects⟩ := exists_connects hc hmem
    rw [hconnects.source]
    exact ⟨hconnects.lt_size, hconnects.affected⟩
  · rintro ⟨hlabel, haffected⟩
    obtain ⟨path, hpath, htypes, hsource⟩ := exists_path_of_affected hc htype hlabel haffected
    exact ⟨path, UpgradePlan.mem_pathsFor_iff.mpr ⟨hpath, htypes⟩, by rw [hsource]; rfl⟩

/-- **The paths of a type lead from each of its labels to the next one.** -/
theorem map_ends_pathsFor (htype : c.schema.IsUpgradable type) {labels : List Nat}
    (hlabels : c.graph.labels type = .ok labels) :
    (c.plan.pathsFor type).map (fun path => (path.source, path.target)) =
      (labels.zip labels.tail).map fun ends => (⟨type, some ends.1⟩, ⟨type, some ends.2⟩) := by
  rw [hc.graph.labels_eq hc.schema htype.mem_names htype.evolves] at hlabels
  obtain rfl := Except.ok.inj hlabels
  have hchain : (c.graph.starts type ++ [c.graph.current]).IsChain _ :=
    hc.graph.isChain_labels hc.schema
  rw [← map_pathsFor hc htype] at hchain ⊢
  have hends : ∀ path ∈ c.plan.pathsFor type,
      path.source = ⟨type, some (path.source.version.getD 0)⟩ ∧
      path.target = ⟨type, some (path.target.version.getD 0)⟩ ∧
      ∀ next, c.schema.LabelAt (path.source.version.getD 0 + 1) type next →
        next = path.target.version.getD 0 := by
    intro path hpath
    obtain ⟨hmem, rfl⟩ := UpgradePlan.mem_pathsFor_iff.mp hpath
    obtain ⟨start, next, hconnects⟩ := exists_connects hc hmem
    rw [hconnects.source, hconnects.target]
    exact ⟨rfl, rfl, fun next' hnext' => hnext'.unique hconnects.follows⟩
  rw [zip_tail_of_isChain hchain fun path hpath => (hends path hpath).2.2, List.map_map]
  refine List.map_congr_left fun path hpath => ?_
  obtain ⟨hsource, htarget, -⟩ := hends path hpath
  exact Prod.ext hsource htarget

/-- The labels of a type are the versions that its nodes are labelled with. -/
theorem mem_labels_iff (htype : c.schema.IsUpgradable type) {labels : List Nat}
    (hlabels : c.graph.labels type = .ok labels) :
    label ∈ labels ↔ ∃ node ∈ c.graph.nodes, node.identity = ⟨type, some label⟩ := by
  rw [hc.graph.labels_eq hc.schema htype.mem_names htype.evolves] at hlabels
  obtain rfl := Except.ok.inj hlabels
  have hcurrent := hc.graph.current_eq
  have hsize : 0 < c.schema.chain.size := hc.schema.chain.nonempty
  rw [List.mem_append, List.mem_singleton, hc.graph.mem_starts_iff]
  constructor
  · intro hlabel
    have hlt : label < c.schema.chain.size := by omega
    have hown : c.schema.LabelAt label type label := by
      refine ⟨Nat.le_refl _, hlt, ?_, fun hle hlt => absurd hle (Nat.not_le.mpr hlt)⟩
      rcases hlabel with ⟨-, haffected⟩ | hlast
      · exact .inr haffected
      · exact .inl (by omega)
    obtain ⟨node, label', hnode, hlabel', hidentity⟩ :=
      hc.graph.exists_nodeAt_labelAt hlt htype.mem_names htype.evolves
    obtain rfl := hown.unique hlabel'
    obtain ⟨id, -, hget⟩ := Graph.nodeAt_eq_ok_iff.mp hnode
    exact ⟨node, Array.mem_of_getElem? hget, hidentity⟩
  · rintro ⟨node, hmem, hidentity⟩
    obtain ⟨id, hget⟩ := Array.mem_iff_getElem?.mp hmem
    obtain ⟨rfl, hversion⟩ := Identity.mk.inj hidentity
    obtain ⟨hlt, hnode⟩ := hc.graph.nodeAt_label hget hversion
    obtain ⟨label', hlabel'⟩ := Replayed.exists_labelAt hlt node.name
    have hsame := hc.graph.version_eq_of_labelAt hnode hlabel'
    rw [if_pos htype.evolves, hversion] at hsame
    obtain rfl := Option.some.inj hsame
    rcases hlabel'.ends with hlast | haffected
    · exact .inr (by omega)
    · by_cases hlast : label + 1 = c.schema.chain.size
      · exact .inr (by omega)
      · exact .inl ⟨by omega, haffected⟩

/-! ## Following paths -/

/-- **Paths are followed along the upgrade chain**, up to the current version. -/
theorem follows_of_labelAt (htype : c.schema.IsUpgradable type)
    (h : c.schema.LabelAt v type label) :
    ∃ steps, c.graph.upgradeChain type label c.graph.current = .ok steps ∧
      c.plan.Follows ⟨type, some label⟩ steps ∧
        (⟨type, some label⟩ :: steps).getLast? = some ⟨type, some c.graph.current⟩ := by
  have hcurrent := hc.graph.current_eq
  -- on the versions that are left: each path leads to a later label
  induction hleft : c.graph.current - label using Nat.strong_induction_on generalizing v label with
  | _ left ih =>
    have hlt := h.lt_size
    rcases Nat.lt_or_ge label c.graph.current with hbefore | hlast
    · have haffected : c.schema.Affected label type := h.ends.resolve_left (by omega)
      have hv : label + 1 < c.schema.chain.size := by omega
      obtain ⟨path, hpath, rfl, hsource⟩ := exists_path_of_affected hc htype hv haffected
      obtain ⟨start, next, hconnects⟩ := exists_connects hc hpath
      obtain rfl : start = label :=
        Option.some.inj (Identity.mk.inj (hconnects.source.symm.trans hsource)).2
      have hnext := hconnects.follows
      have hahead := hnext.le
      have hend := hnext.lt_size
      obtain ⟨steps, hchain, hfollows, hgetLast⟩ := ih _ (by omega) hnext rfl
      refine ⟨path.target :: steps, ?_, ?_, ?_⟩
      · rw [hc.graph.upgradeChain_of_labelAt htype.mem_names htype.evolves hnext (by omega),
          hchain, hconnects.target]
        rfl
      · rw [← hconnects.target] at hfollows
        exact .step ((path?_eq_some_iff hc).mpr ⟨hpath, hsource⟩) hfollows
      · rw [List.getLast?_cons_cons, hconnects.target]
        exact hgetLast
    · obtain rfl : label = c.graph.current := by omega
      refine ⟨[], Built.upgradeChain_of_le (Nat.le_refl _), .stop ?_, rfl⟩
      refine Option.eq_none_iff_forall_ne_some.mpr fun path hfound => ?_
      obtain ⟨hpath, hsource⟩ := (path?_eq_some_iff hc).mp hfound
      obtain ⟨start, next, hconnects⟩ := exists_connects hc hpath
      have hstart := Option.some.inj (Identity.mk.inj (hconnects.source.symm.trans hsource)).2
      have hsize := hconnects.lt_size
      omega

omit hc in
/-- **Every old instance can be upgraded**, in exactly one way. A base or super type has a path from
each of its labels to the next one, and no others; the last label is the current version. From the
node of the type at any version, the paths lead through the identities of the upgrade chain to the
node of the current version. No other name has paths, and all paths are sorted strictly by their
source versions and type names. -/
theorem paths_complete {config : Config} {workers : Nat} (h : config.compile workers = .ok c) :
    (∀ type, type ∈ c.definition.baseTypes ∨ type ∈ c.definition.superTypes →
      ∃ labels, c.graph.labels type = .ok labels ∧
        (∀ label, label ∈ labels ↔
          ∃ node ∈ c.graph.nodes, node.identity = ⟨type, some label⟩) ∧
        labels.Pairwise (· < ·) ∧ labels.getLast? = some c.graph.current ∧
        (c.plan.pathsFor type).map (fun path => (path.source, path.target)) =
          (labels.zip labels.tail).map (fun ends => (⟨type, some ends.1⟩, ⟨type, some ends.2⟩)) ∧
        ∀ version < c.graph.versionCount, ∃ node label last steps,
          c.graph.nodeAt type version = .ok node ∧ node.version = some label ∧
          c.graph.nodeAt type c.graph.current = .ok last ∧
          c.graph.upgradeChain type label c.graph.current = .ok steps ∧
          c.plan.Follows node.identity steps ∧
          (node.identity :: steps).getLast? = some last.identity) ∧
    (∀ name, name ∉ c.definition.baseTypes → name ∉ c.definition.superTypes →
      c.plan.pathsFor name = []) ∧
    (∀ path ∈ c.plan.paths, path.source.name = path.type) ∧
    c.plan.paths.Pairwise fun path later => path.source.Precedes later.source := by
  have hc := sound_of_compile h
  have hdeclared : ∀ type, c.schema.IsUpgradable type ↔
      type ∈ c.definition.baseTypes ∨ type ∈ c.definition.superTypes := fun type =>
    or_congr hc.schema.definition.base hc.schema.definition.super
  have hcurrent := hc.graph.current_eq
  have hcount := hc.graph.versionCount_eq
  have hsize : 0 < c.schema.chain.size := hc.schema.chain.nonempty
  refine ⟨fun type htype => ?_, fun name hbase hsuper => ?_, fun path hpath => ?_,
    pairwise_paths hc⟩
  · have htype := (hdeclared type).mpr htype
    have hlabels := hc.graph.labels_eq hc.schema htype.mem_names htype.evolves
    refine ⟨_, hlabels, fun label => mem_labels_iff hc htype hlabels, Built.pairwise_labels,
      List.getLast?_concat, map_ends_pathsFor hc htype hlabels, fun version hversion => ?_⟩
    obtain ⟨node, label, hnode, hlabel, hidentity⟩ :=
      hc.graph.exists_nodeAt_labelAt (hcount ▸ hversion) htype.mem_names htype.evolves
    obtain ⟨last, label', hlast, hlabel', hidentity'⟩ := hc.graph.exists_nodeAt_labelAt
      (v := c.graph.current) (by omega) htype.mem_names htype.evolves
    obtain rfl : label' = c.graph.current := by
      have hle := hlabel'.le
      have hlt := hlabel'.lt_size
      omega
    obtain ⟨steps, hchain, hfollows, hgetLast⟩ := follows_of_labelAt hc htype hlabel
    refine ⟨node, label, last, steps, hnode, congrArg Identity.version hidentity, hlast, hchain,
      ?_, ?_⟩
    · rwa [hidentity]
    · rwa [hidentity, hidentity']
  · refine List.eq_nil_iff_forall_not_mem.mpr fun path hpath => ?_
    obtain ⟨hmem, rfl⟩ := UpgradePlan.mem_pathsFor_iff.mp hpath
    obtain ⟨label, next, hconnects⟩ := exists_connects hc hmem
    exact ((hdeclared _).mp hconnects.type).elim hbase hsuper
  · obtain ⟨label, next, hconnects⟩ := exists_connects hc hpath
    rw [hconnects.source]

omit hc in
theorem paths_complete_sample : ∃ c labels node steps last, Config.sample.compile 1 = .ok c ∧
    ("B" ∈ c.definition.baseTypes ∨ "B" ∈ c.definition.superTypes) ∧ 0 < c.graph.versionCount ∧
    c.graph.labels "B" = .ok labels ∧
    (c.plan.pathsFor "B").map (fun path => (path.source, path.target)) =
      (labels.zip labels.tail).map (fun ends => (⟨"B", some ends.1⟩, ⟨"B", some ends.2⟩)) ∧
    c.graph.nodeAt "B" 0 = .ok node ∧ c.plan.Follows node.identity steps ∧
    c.graph.nodeAt "B" c.graph.current = .ok last ∧
    (node.identity :: steps).getLast? = some last.identity := by
  obtain ⟨c, -, hc, hcount, -, -, -, -, hpath⟩ := Config.exists_compile_sample
  obtain ⟨htypes, hothers, -⟩ := paths_complete hc
  have hdeclared : "B" ∈ c.definition.baseTypes ∨ "B" ∈ c.definition.superTypes := by
    by_contra hnot
    rw [not_or] at hnot
    have hmem : UpgradePath.sample ∈ c.plan.pathsFor "B" :=
      UpgradePlan.mem_pathsFor_iff.mpr ⟨hpath, rfl⟩
    rw [hothers "B" hnot.1 hnot.2] at hmem
    cases hmem
  have hv : 0 < c.graph.versionCount := by omega
  obtain ⟨labels, hlabels, -, -, -, hends, hversions⟩ := htypes "B" hdeclared
  obtain ⟨node, label, last, steps, hnode, -, hlast, -, hfollows, hgetLast⟩ := hversions 0 hv
  exact ⟨c, labels, node, steps, last, hc, hdeclared, hv, hlabels, hends, hnode, hfollows, hlast,
    hgetLast⟩

end Compilation

end SchemaEvolution

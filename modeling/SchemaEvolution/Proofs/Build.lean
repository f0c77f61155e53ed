import SchemaEvolution.Proofs.Body
import SchemaEvolution.Proofs.Closure
import SchemaEvolution.Proofs.Reserve

/-!
# Building the graph

The graph is built from the current version backwards. What holds of it once the versions from
some place on are built is stated as one invariant; one more version keeps it, and so the walk
back ends with a graph of which it holds at all versions.

## Main definitions

* `Replayed.Targets`, `Replayed.Affected`: the types that a version transforms, and those that
  depend on them
* `Replayed.Represents`: a node stands for a name at a version
* `Built`: the invariant of a graph that is built from some version on

## Main results

* `Built.extend`: one more version keeps the invariant
* `Built.walkBack`: the walk back succeeds and keeps the invariant
-/

namespace SchemaEvolution

/-! ## The node of a name -/

theorem Blueprint.node_eq_ok_iff {blueprint : Blueprint} {index : Index} {version : Nat}
    {job : String × NodeId} {node : Node} :
    blueprint.node index version job = .ok node ↔ node.id = job.2 ∧ node.name = job.1 ∧
      node.version = (if blueprint.evolves job.1 then some version else none) ∧
        blueprint.Describes (index.node? · version) version job.1 node.kind := by
  unfold Blueprint.node
  rw [bind_eq_ok]
  constructor
  · rintro ⟨kind, hkind, h⟩
    obtain rfl := Except.ok.inj h
    exact ⟨rfl, rfl, rfl, body_eq_ok_iff.mp hkind⟩
  · obtain ⟨id, name, label, kind⟩ := node
    rintro ⟨rfl, rfl, rfl, hkind⟩
    exact ⟨kind, body_eq_ok_iff.mpr hkind, rfl⟩

/-! ## The invariant -/

namespace Replayed

/-- The types that differ from the next version. -/
def seed (replayed : Replayed) (version : Nat) : List String :=
  ((replayed.history.snapshots version).filter Snapshot.differsFromNext).map Snapshot.type

/-- A version transforms a type. -/
def Targets (replayed : Replayed) (version : Nat) (type : String) : Prop :=
  ∃ stage, replayed.history.stages[version]? = some stage ∧
    ∃ step ∈ stage.transformations, step.type = type

/-- **A name is affected** behind a version when it reaches a type that the next version
transforms. -/
def Affected (replayed : Replayed) (version : Nat) (name : String) : Prop :=
  ∃ target, replayed.Targets (version + 1) target ∧
    Relation.ReflTransGen
      (fun name other => other ∈ replayed.blueprint.referencesAt (version + 1) name) name target

/-- **A node stands for a name at a version**: it has the name, its label is not behind a version
that affects the name, and its body is the one that the schema gives. -/
structure Represents (replayed : Replayed) (index : Index) (version : Nat) (name : String)
    (node : Node) : Prop where
  named : node.name = name
  label : ∃ label, version ≤ label ∧ label < replayed.chain.size ∧
    (replayed.Affected version name → label = version) ∧
      node.version = if replayed.blueprint.evolves name then some label else none
  kind : replayed.blueprint.Describes (index.node? · version) version name node.kind

end Replayed

/-- **A graph that is built from some version on.** -/
structure Built (replayed : Replayed) (first : Nat) (sketch : Sketch) : Prop where
  size : sketch.index.size = replayed.chain.size
  names : ∀ {version}, version < replayed.chain.size →
    sketch.index.names version = replayed.blueprint.names
  references : ∀ {version}, version < replayed.chain.size → ∀ name,
    sketch.index.references name version = replayed.blueprint.referencesAt version name
  /-- No node is entered at the versions before. -/
  unbound : ∀ {version}, version < first → ∀ name, sketch.index.node? name version = none
  /-- Every name has a node at the versions from there on. -/
  bound : ∀ {version name}, first ≤ version → version < replayed.chain.size →
    name ∈ replayed.blueprint.names → ∃ id node, sketch.index.node? name version = some id ∧
      sketch.nodes[id]? = some node ∧ replayed.Represents sketch.index version name node
  /-- Two versions share the nodes of exactly the names that are not affected. -/
  shared : ∀ {version name}, first ≤ version → version + 1 < replayed.chain.size →
    name ∈ replayed.blueprint.names →
      (sketch.index.node? name version = sketch.index.node? name (version + 1) ↔
        ¬replayed.Affected version name)
  /-- Every node stands for its own name at the version of its label. -/
  owner : ∀ {id node}, sketch.nodes[id]? = some node → node.id = id ∧
    node.name ∈ replayed.blueprint.names ∧ ∃ version, first ≤ version ∧
      version < replayed.chain.size ∧ sketch.index.node? node.name version = some id ∧
        node.version = if replayed.blueprint.evolves node.name then some version else none
  count : sketch.changed.length + first = replayed.chain.size
  changed : ∀ {place set}, sketch.changed[place]? = some set → ∀ name,
    name ∈ set ↔ replayed.Affected (first + place) name

variable {replayed : Replayed} {sketch : Sketch} {v : Nat} {name : String} {node : Node}
  {index index' : Index}

/-! ### Affected names -/

namespace Replayed

theorem Targets.lt_size (hr : replayed.Sound) {type : String} (h : replayed.Targets v type) :
    v < replayed.chain.size := by
  obtain ⟨stage, hstage, -⟩ := h
  exact hr.lt_size_of_stage hstage

theorem not_affected_of_size_le (hr : replayed.Sound) (hv : replayed.chain.size ≤ v + 1) :
    ¬replayed.Affected v name := by
  rintro ⟨target, htarget, -⟩
  exact absurd (htarget.lt_size hr) (by omega)

theorem affected_of_targets (h : replayed.Targets (v + 1) name) : replayed.Affected v name :=
  ⟨name, h, .refl⟩

theorem Affected.of_mem_referencesAt {other : String} (h : replayed.Affected v other)
    (hother : other ∈ replayed.blueprint.referencesAt (v + 1) name) : replayed.Affected v name := by
  obtain ⟨target, htarget, hreach⟩ := h
  exact ⟨target, htarget, .head hother hreach⟩

theorem not_mem_changed_of_not_affected (hr : replayed.Sound) (h : ¬replayed.Affected v name)
    {after : Stage} (hafter : replayed.history.stages[v + 1]? = some after) :
    name ∉ after.changed := fun hchanged =>
  h (affected_of_targets ⟨after, hafter, (hr.mem_changed_iff hafter).mp hchanged⟩)

/-- A name that does not evolve reaches none that does. -/
theorem Sound.not_evolves_of_reaches (hr : replayed.Sound) {other : String}
    (h : Relation.ReflTransGen
      (fun name other => other ∈ replayed.blueprint.referencesAt v name) name other)
    (hname : replayed.blueprint.evolves name = false) :
    replayed.blueprint.evolves other = false := by
  induction h with
  | refl => exact hname
  | tail _ hrefers ih => exact hr.not_evolves_of_mem_referencesAt ih hrefers

/-- **Leaves and their wrappers are never affected.** -/
theorem Sound.not_affected_of_not_evolves (hr : replayed.Sound)
    (hname : replayed.blueprint.evolves name = false) : ¬replayed.Affected v name := by
  rintro ⟨target, ⟨stage, hstage, step, hstep, rfl⟩, hreach⟩
  have hbase := (hr.checked_transformation hstage hstep).1
  have hevolves := hr.not_evolves_of_reaches hreach hname
  rw [evolves_of_category hbase] at hevolves
  cases hevolves

/-- **A wrapper is affected with the type that it wraps**, since no transformation targets it. -/
theorem Sound.affected_of_canonical (hr : replayed.Sound) {ref : TypeRef}
    (href : ref ∈ replayed.typeRefs) (h : replayed.Affected v ref.canonical) :
    replayed.Affected v ref.name := by
  cases hwrapped : ref.isWrapped with
  | false => rwa [TypeRef.canonical_of_not_wrapped hwrapped] at h
  | true =>
    obtain ⟨target, htarget, hreach⟩ := h
    rcases hreach.cases_head with rfl | ⟨other, hother, hrest⟩
    · obtain ⟨stage, hstage, step, hstep, hstepType⟩ := htarget
      have hbase := (hr.checked_transformation hstage hstep).1
      rw [hstepType] at hbase
      exact absurd (hr.definition.isName hbase) (TypeRef.not_isName_canonical hwrapped)
    · rw [hr.referencesAt_wrapper href hwrapped, List.mem_singleton] at hother
      subst hother
      exact ⟨target, htarget, hrest⟩

/-! ### Nodes that stay -/

theorem Represents.congr (h : replayed.Represents index v name node)
    (hindex : ∀ other, index'.node? other v = index.node? other v) :
    replayed.Represents index' v name node where
  named := h.named
  label := h.label
  kind := h.kind.mono rfl fun other _ => hindex other

/-- **A node that stands for a name at the next version stands for it at this one** when the name
is not affected. -/
theorem Represents.earlier (hr : replayed.Sound) (hv : v + 1 < replayed.chain.size)
    (h : replayed.Represents index (v + 1) name node) (hname : ¬replayed.Affected v name)
    (hindex : ∀ other ∈ replayed.blueprint.referencesAt (v + 1) name,
      index'.node? other v = index.node? other (v + 1)) :
    replayed.Represents index' v name node where
  named := h.named
  label := by
    obtain ⟨label, hle, hlt, -, hlabel⟩ := h.label
    exact ⟨label, by omega, hlt, fun haffected => absurd haffected hname, hlabel⟩
  kind := by
    obtain ⟨after, hafter⟩ := hr.exists_stage hv
    have hkept := hr.layout?_succ_of_not_mem_changed hafter
      (not_mem_changed_of_not_affected hr hname hafter)
    exact h.kind.mono hkept.symm hindex

end Replayed

namespace Built

theorem getElem?_rows {count version : Nat} (row : Nat → SortedMap (List String))
    (hv : version < count) : ((List.range count).map row)[version]? = some (row version) := by
  rw [List.getElem?_map, List.getElem?_range hv, Option.map_some]

/-- Before any version is built, the invariant asks for the references only. -/
theorem empty (replayed : Replayed) :
    Built replayed replayed.chain.size
      ⟨#[], .ofReferences ((List.range replayed.chain.size).map replayed.blueprint.row), []⟩ where
  size := by rw [Index.size_ofReferences, List.length_map, List.length_range]
  names hv := by
    rw [Index.names_ofReferences (getElem?_rows replayed.blueprint.row hv), Blueprint.row,
      SortedMap.keys_map, Blueprint.names]
  references hv name := Index.references_ofReferences (getElem?_rows replayed.blueprint.row hv)
  unbound _ _ := Index.node?_ofReferences
  bound hv hlt := absurd hlt (by omega)
  shared hv hlt := absurd hlt (by omega)
  owner h := by simp at h
  count := Nat.zero_add _
  changed h := by simp at h

/-- The ids of one more version, and what the index knows afterwards. -/
theorem exists_reserved (hd : Built replayed (v + 1) sketch) (hv : v < replayed.chain.size)
    {isNew : String → Bool} (hnew : ∀ name ∈ replayed.blueprint.names,
      isNew name = true ↔ v + 1 = replayed.chain.size ∨ replayed.Affected v name) :
    ∃ index', Sketch.reserve v isNew replayed.blueprint.names sketch.nodes.size sketch.index =
      .ok ((replayed.blueprint.names.filter isNew).zipIdx sketch.nodes.size, index') ∧
        Reserved v isNew replayed.blueprint.names sketch.nodes.size sketch.index index' ∧
          ∀ name ∈ replayed.blueprint.names, ∃ id, index'.node? name v = some id := by
  have hold : ∀ name ∈ replayed.blueprint.names, isNew name = false →
      ∃ id, sketch.index.node? name (v + 1) = some id := by
    intro name hname hfalse
    have hlt : v + 1 ≠ replayed.chain.size := by
      intro heq
      rw [(hnew name hname).mpr (.inl heq)] at hfalse
      cases hfalse
    obtain ⟨id, -, hid, -⟩ := hd.bound (Nat.le_refl _) (by omega) hname
    exact ⟨id, hid⟩
  obtain ⟨index', hreserve, hres⟩ := Sketch.exists_reserve sketch.nodes.size
    replayed.blueprint.entries.distinct (fun name hname => by rwa [hd.names hv])
    (fun name _ => hd.unbound (Nat.lt_succ_self v) name) hold
  refine ⟨index', hreserve, hres, fun name hname => ?_⟩
  cases hfirst : isNew name with
  | true =>
    obtain ⟨id, -, hid⟩ := hres.exists_fresh hname hfirst
    exact ⟨id, hid⟩
  | false =>
    rw [hres.shared hname hfirst]
    exact hold name hname hfirst

/-- The nodes for the reserved ids. -/
theorem exists_nodes (hr : replayed.Sound) (hv : v < replayed.chain.size)
    (isNew : String → Bool) (next : NodeId)
    (hbound : ∀ name ∈ replayed.blueprint.names, ∃ id, index'.node? name v = some id) :
    ∃ nodes, ((replayed.blueprint.names.filter isNew).zipIdx next).mapM
      (replayed.blueprint.node index' v) = .ok nodes := by
  refine exists_mapM_eq_ok fun job hjob => ?_
  have hname : job.1 ∈ replayed.blueprint.names :=
    (List.mem_filter.mp (List.fst_mem_of_mem_zipIdx hjob)).1
  obtain ⟨kind, hkind⟩ := hr.exists_describes hv hname
    fun other hother => hbound other (hr.mem_names_of_mem_referencesAt hother)
  exact ⟨⟨job.2, job.1, _, kind⟩, Blueprint.node_eq_ok_iff.mpr ⟨rfl, rfl, rfl, hkind⟩⟩

section Extend

variable (hr : replayed.Sound) (hd : Built replayed (v + 1) sketch)
  (hv : v < replayed.chain.size) {isNew : String → Bool}
  (hnew : ∀ name ∈ replayed.blueprint.names,
    isNew name = true ↔ v + 1 = replayed.chain.size ∨ replayed.Affected v name)
  (hres : Reserved v isNew replayed.blueprint.names sketch.nodes.size sketch.index index')
  {nodes : List Node}
  (hnodes : List.Forall₂ (fun job node => replayed.blueprint.node index' v job = .ok node)
    ((replayed.blueprint.names.filter isNew).zipIdx sketch.nodes.size) nodes)

include hnew in
/-- A name that gets no new node is one that the next version does not affect. -/
theorem not_affected_of_old (hname : name ∈ replayed.blueprint.names)
    (hold : isNew name = false) : v + 1 ≠ replayed.chain.size ∧ ¬replayed.Affected v name := by
  rw [← not_or]
  intro h
  rw [(hnew name hname).mpr h] at hold
  cases hold

include hr hd hv hnew hres hnodes

theorem bound_extend (hname : name ∈ replayed.blueprint.names) :
    ∃ id node, index'.node? name v = some id ∧ (sketch.nodes ++ nodes.toArray)[id]? = some node ∧
      replayed.Represents index' v name node := by
  cases hfirst : isNew name with
  | true =>
    obtain ⟨id, hmem, hid⟩ := hres.exists_fresh hname hfirst
    obtain ⟨node, hget, hnode⟩ := exists_getElem?_append hnodes hmem
    obtain ⟨-, hnamed, hlabel, hkind⟩ := Blueprint.node_eq_ok_iff.mp hnode
    exact ⟨id, node, hid, hget, hnamed, ⟨v, Nat.le_refl v, hv, fun _ => rfl, hlabel⟩, hkind⟩
  | false =>
    obtain ⟨hlast, hnot⟩ := not_affected_of_old hnew hname hfirst
    obtain ⟨id, node, hid, hget, hrep⟩ := hd.bound (Nat.le_refl _) (by omega) hname
    refine ⟨id, node, (hres.shared hname hfirst).trans hid, getElem?_append_of_getElem? hget,
      hrep.earlier hr (by omega) hnot fun other hother => ?_⟩
    have hotherName := hr.mem_names_of_mem_referencesAt hother
    refine hres.shared hotherName (Bool.eq_false_iff.mpr fun htrue => ?_)
    rcases (hnew other hotherName).mp htrue with heq | haffected
    · exact hlast heq
    · exact hnot (haffected.of_mem_referencesAt hother)

omit hr hv hnodes in
theorem shared_extend (hlt : v + 1 < replayed.chain.size)
    (hname : name ∈ replayed.blueprint.names) :
    index'.node? name v = index'.node? name (v + 1) ↔ ¬replayed.Affected v name := by
  obtain ⟨old, node, hold, hget, -⟩ := hd.bound (Nat.le_refl _) hlt hname
  rw [hres.kept (.inl (Nat.succ_ne_self v)), hold]
  cases hfirst : isNew name with
  | true =>
    obtain ⟨id, hmem, hid⟩ := hres.exists_fresh hname hfirst
    have haffected := ((hnew name hname).mp hfirst).resolve_left (by omega)
    refine iff_of_false (fun h => ?_) (not_not_intro haffected)
    obtain rfl := Option.some.inj (hid.symm.trans h)
    have hle := List.le_snd_of_mem_zipIdx hmem
    exact absurd (Array.getElem?_eq_some_iff.mp hget).1 (Nat.not_lt.mpr hle)
  | false =>
    exact iff_of_true ((hres.shared hname hfirst).trans hold)
      (not_affected_of_old hnew hname hfirst).2

omit hr hnew in
theorem owner_extend {id : NodeId} (h : (sketch.nodes ++ nodes.toArray)[id]? = some node) :
    node.id = id ∧ node.name ∈ replayed.blueprint.names ∧ ∃ version, v ≤ version ∧
      version < replayed.chain.size ∧ index'.node? node.name version = some id ∧
        node.version = if replayed.blueprint.evolves node.name then some version else none := by
  rcases mem_or_mem_of_getElem?_append hnodes h with hold | ⟨name, hmem, hnode⟩
  · obtain ⟨hid, hname, version, hle, hlt, hbound, hlabel⟩ := hd.owner hold
    refine ⟨hid, hname, version, by omega, hlt, ?_, hlabel⟩
    rw [hres.kept (.inl (by omega)), hbound]
  · obtain ⟨hid, hnamed, hlabel, -⟩ := Blueprint.node_eq_ok_iff.mp hnode
    rw [hnamed]
    exact ⟨hid, (List.mem_filter.mp (List.fst_mem_of_mem_zipIdx hmem)).1, v, Nat.le_refl v, hv,
      hres.fresh hmem, hlabel⟩

theorem extended {set : NameSet} (hset : ∀ name, name ∈ set ↔ replayed.Affected v name) :
    Built replayed v ⟨sketch.nodes ++ nodes.toArray, index', set :: sketch.changed⟩ where
  size := hres.shape.size.symm.trans hd.size
  names {version} hlt := (hres.shape.names version).symm.trans (hd.names hlt)
  references {version} hlt name := (hres.shape.references name version).symm.trans
    (hd.references hlt name)
  unbound {version} hlt name := by
    rw [hres.kept (.inl (Nat.ne_of_lt hlt))]
    exact hd.unbound (Nat.lt_succ_of_lt hlt) name
  bound {version name} hle hlt hname := by
    rcases Nat.eq_or_lt_of_le hle with rfl | hbehind
    · exact bound_extend hr hd hv hnew hres hnodes hname
    · obtain ⟨id, node, hid, hget, hrep⟩ := hd.bound hbehind hlt hname
      have hkept : ∀ other, index'.node? other version = sketch.index.node? other version :=
        fun other => hres.kept (.inl (Nat.ne_of_gt hbehind))
      exact ⟨id, node, (hkept name).trans hid, getElem?_append_of_getElem? hget, hrep.congr hkept⟩
  shared {version name} hle hlt hname := by
    rcases Nat.eq_or_lt_of_le hle with rfl | hbehind
    · exact shared_extend hd hnew hres hlt hname
    · have hkept : ∀ {later}, version ≤ later →
          index'.node? name later = sketch.index.node? name later :=
        fun hlater => hres.kept (.inl (by omega))
      exact (by rw [hkept (Nat.le_refl _), hkept (Nat.le_succ _)] : _ ↔ _).trans
        (hd.shared hbehind hlt hname)
  owner h := owner_extend hd hv hres hnodes h
  count := by
    have hcount := hd.count
    simp only [List.length_cons]
    omega
  changed {place set'} hget name := by
    cases place with
    | zero =>
      obtain rfl := Option.some.inj hget
      exact hset name
    | succ place =>
      have hlater := hd.changed hget name
      rwa [Nat.succ_add_eq_add_succ] at hlater

end Extend

/-- **One more version keeps the invariant.** -/
theorem extend (hr : replayed.Sound) (hd : Built replayed (v + 1) sketch)
    (hv : v < replayed.chain.size) {isNew : String → Bool} {set : NameSet}
    (hnew : ∀ name ∈ replayed.blueprint.names,
      isNew name = true ↔ v + 1 = replayed.chain.size ∨ replayed.Affected v name)
    (hset : ∀ name, name ∈ set ↔ replayed.Affected v name) :
    ∃ sketch', sketch.extend replayed.blueprint v isNew set = .ok sketch' ∧
      Built replayed v sketch' := by
  -- the ids are reserved first, so that the nodes can refer to each other
  obtain ⟨index', hreserve, hres, hbound⟩ := hd.exists_reserved hv hnew
  obtain ⟨nodes, hnodes⟩ := exists_nodes hr hv isNew sketch.nodes.size hbound
  refine ⟨_, ?_, extended hr hd hv hnew hres (mapM_eq_ok_iff.mp hnodes) hset⟩
  unfold Sketch.extend
  rw [hreserve]
  simp only [ok_bind, hnodes]
  rfl

/-! ### The walk back -/

/-- **What the closure starts from** are the types that the next version transforms. -/
theorem mem_seed_iff (hr : replayed.Sound) (hv : v + 1 < replayed.chain.size) :
    name ∈ replayed.seed v ↔ replayed.Targets (v + 1) name := by
  obtain ⟨before, hbefore⟩ := hr.exists_stage (v := v) (by omega)
  obtain ⟨after, hafter⟩ := hr.exists_stage hv
  have htargets : replayed.Targets (v + 1) name ↔ name ∈ after.changed := by
    rw [hr.mem_changed_iff hafter]
    constructor
    · rintro ⟨stage, hstage, hstep⟩
      obtain rfl := Option.some.inj (hafter.symm.trans hstage)
      exact hstep
    · exact fun hstep => ⟨after, hafter, hstep⟩
  have hdiffers : ∀ fields, (name, fields) ∈ before.layouts.entries →
      (replayed.history.differsAfter v name fields = true ↔ name ∈ after.changed) := by
    intro fields hentry
    have hget := OrderedMap.get?_eq_some_iff.mpr hentry
    exact History.differsAfter_eq_true_iff hr.ofChain_eq_ok hafter
      (History.layout?_eq_some_iff.mpr ⟨before, hbefore, hget⟩)
  rw [htargets, Replayed.seed, History.snapshots, hbefore]
  simp only [List.mem_map, List.mem_filter]
  constructor
  · rintro ⟨_, ⟨⟨⟨type, fields⟩, hentry, rfl⟩, hflag⟩, rfl⟩
    exact (hdiffers fields hentry).mp hflag
  · intro hchanged
    obtain ⟨stage, hstage, step, hstep, rfl⟩ := htargets.mpr hchanged
    have hbase := (hr.checked_transformation hstage hstep).1
    obtain ⟨fields, hfields⟩ := hr.exists_layout (v := v) (by omega) hbase
    obtain ⟨stage', hstage', hget⟩ := History.layout?_eq_some_iff.mp hfields
    obtain rfl := Option.some.inj (hbefore.symm.trans hstage')
    have hentry := OrderedMap.get?_eq_some_iff.mp hget
    exact ⟨_, ⟨⟨_, hentry, rfl⟩, (hdiffers fields hentry).mpr hchanged⟩, rfl⟩

/-- In the index, reaching means what it means in the schema. -/
theorem reaches_iff (hd : Built replayed v sketch) {version : Nat}
    (hversion : version < replayed.chain.size) {other : String} :
    sketch.index.Reaches version name other ↔ Relation.ReflTransGen
      (fun name other => other ∈ replayed.blueprint.referencesAt version name) name other := by
  unfold Index.Reaches
  simp only [hd.references hversion]

/-- **What the walk back collects are the affected names.** -/
theorem mem_closure_seed_iff (hr : replayed.Sound) (hd : Built replayed (v + 1) sketch)
    (hv : v + 1 < replayed.chain.size) :
    name ∈ sketch.index.closure (v + 1) (replayed.seed v) ↔ replayed.Affected v name := by
  simp only [Index.mem_closure_iff, mem_seed_iff hr hv, hd.reaches_iff hv]
  rfl

/-- **The names that get a new node** at a version before the last are the affected ones. -/
theorem isNew_iff (hr : replayed.Sound) (hd : Built replayed (v + 1) sketch)
    (hv : v + 1 < replayed.chain.size) :
    decide (name ∈ sketch.index.closure (v + 1) (replayed.seed v)) = true ↔
      v + 1 = replayed.chain.size ∨ replayed.Affected v name := by
  rw [decide_eq_true_iff, hd.mem_closure_seed_iff hr hv]
  exact (or_iff_right (by omega)).symm

/-- **The walk back succeeds**, and at its end the invariant holds of all versions. -/
theorem walkBack (hr : replayed.Sound) (hd : Built replayed v sketch)
    (hv : v < replayed.chain.size) :
    ∃ sketch', sketch.walkBack replayed.blueprint v = .ok sketch' ∧
      Built replayed 0 sketch' := by
  -- the invariant is carried from each version to the one before it
  induction v generalizing sketch with
  | zero => exact ⟨sketch, rfl, hd⟩
  | succ v ih =>
    obtain ⟨next, hnext, hbuilt⟩ := hd.extend hr (by omega) (fun _ _ => hd.isNew_iff hr hv)
      (fun _ => hd.mem_closure_seed_iff hr hv)
    obtain ⟨last, hlast, hdone⟩ := ih hbuilt (by omega)
    exact ⟨last, bind_eq_ok.mpr ⟨next, hnext, hlast⟩, hdone⟩

end Built

end SchemaEvolution

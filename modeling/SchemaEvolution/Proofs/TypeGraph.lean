import SchemaEvolution.Proofs.Build

/-!
# The finished graph

Every schema that is accepted up to its graph has one. In it each name has a node at every
version, each node is found under its own name at the version of its label, and the members of
union nodes keep their numbers.

## Main definitions

* `Graph.sketch`: the graph as the last state of its construction
* `Graph.InRange`: no id leads out of the graph
* `Compilation.Sound`: a sound schema with its graph and its plan

## Main results

* `Built.exists_nodeAt`: every name has a node at every version
* `Built.represents_of_nodeAt`: whatever is found stands for its name
* `Built.exists_owner`: every node is in force at the version of its label
* `Replayed.Sound.exists_build`: an accepted schema has a graph
* `Compilation.sound_of_compile`: what is compiled is sound
-/

namespace SchemaEvolution

/-- The graph as the last state of its construction. -/
def Graph.sketch (graph : Graph) : Sketch := ⟨graph.nodes, graph.index, graph.changed⟩

variable {replayed : Replayed} {graph : Graph} {v : Nat} {name : String} {node next : Node}

theorem Graph.node_eq_ok_iff {id : NodeId} :
    graph.node id = .ok node ↔ graph.nodes[id]? = some node := by
  unfold Graph.node
  cases graph.nodes[id]? with
  | none => exact ⟨nofun, nofun⟩
  | some found =>
    exact ⟨fun h => congrArg some (Except.ok.inj h), fun h => congrArg _ (Option.some.inj h)⟩

theorem Graph.nodeAt_eq_ok_iff : graph.nodeAt name v = .ok node ↔
    ∃ id, graph.index.node? name v = some id ∧ graph.nodes[id]? = some node := by
  simp only [Graph.nodeAt, bind_eq_ok, Index.resolve_eq_ok_iff, Graph.node_eq_ok_iff]

namespace Built

variable (hg : Built replayed 0 graph.sketch)

include hg

theorem versionCount_eq : graph.versionCount = replayed.chain.size := hg.size

theorem current_eq : graph.current = replayed.chain.size - 1 := by
  rw [Graph.current, hg.versionCount_eq]

theorem mem_names_iff (hv : v < replayed.chain.size) :
    name ∈ graph.index.names v ↔ name ∈ replayed.blueprint.names := by
  have hnames : graph.index.names v = replayed.blueprint.names := hg.names hv
  rw [hnames]

/-- Whatever the index finds is a node of the name that is looked up. -/
theorem mem_of_node? {id : NodeId} (h : graph.index.node? name v = some id) :
    v < replayed.chain.size ∧ name ∈ replayed.blueprint.names := by
  have hmem := Index.mem_names_of_node? h
  have hsize : graph.index.size = replayed.chain.size := hg.size
  have hv : v < replayed.chain.size := hsize ▸ Index.lt_size_of_mem_names hmem
  exact ⟨hv, (hg.mem_names_iff hv).mp hmem⟩

/-- **Every name has a node at every version**, which stands for it. -/
theorem exists_nodeAt (hv : v < replayed.chain.size) (hname : name ∈ replayed.blueprint.names) :
    ∃ node, graph.nodeAt name v = .ok node ∧ graph.index.node? name v = some node.id ∧
      graph.nodes[node.id]? = some node ∧ replayed.Represents graph.index v name node := by
  obtain ⟨id, node, hid, hget, hrep⟩ := hg.bound (Nat.zero_le v) hv hname
  obtain ⟨rfl, -⟩ := hg.owner hget
  exact ⟨node, Graph.nodeAt_eq_ok_iff.mpr ⟨_, hid, hget⟩, hid, hget, hrep⟩

/-- **Whatever is found stands for its name.** -/
theorem represents_of_nodeAt (h : graph.nodeAt name v = .ok node) :
    graph.index.node? name v = some node.id ∧ graph.nodes[node.id]? = some node ∧
      replayed.Represents graph.index v name node := by
  obtain ⟨id, hid, -⟩ := Graph.nodeAt_eq_ok_iff.mp h
  obtain ⟨hv, hname⟩ := hg.mem_of_node? hid
  obtain ⟨found, hfound, hrest⟩ := hg.exists_nodeAt hv hname
  obtain rfl := Except.ok.inj (h.symm.trans hfound)
  exact hrest

/-- **Every node is in force at the version of its label.** -/
theorem exists_owner {id : NodeId} (h : graph.nodes[id]? = some node) :
    ∃ version < replayed.chain.size, graph.nodeAt node.name version = .ok node ∧
      node.version =
        if replayed.blueprint.evolves node.name then some version else none := by
  obtain ⟨hid, hname, version, -, hv, hbound, hlabel⟩ := hg.owner h
  exact ⟨version, hv, Graph.nodeAt_eq_ok_iff.mpr ⟨id, hbound, h⟩, hlabel⟩

/-- A node with a label is in force at that version. -/
theorem nodeAt_label {id label : Nat} (h : graph.nodes[id]? = some node)
    (hlabel : node.version = some label) :
    label < replayed.chain.size ∧ graph.nodeAt node.name label = .ok node := by
  obtain ⟨version, hv, hnode, hversion⟩ := hg.exists_owner h
  rw [hversion] at hlabel
  split at hlabel
  · obtain rfl := Option.some.inj hlabel
    exact ⟨hv, hnode⟩
  · cases hlabel

/-- The node that follows one that is not current. -/
theorem exists_successor {id label : Nat} (h : graph.nodes[id]? = some node)
    (hlabel : node.version = some label) (hbefore : label < graph.current) :
    ∃ next, graph.successor node = .ok (some next) ∧
      graph.nodeAt node.name (label + 1) = .ok next := by
  obtain ⟨-, hnode⟩ := hg.nodeAt_label h hlabel
  rw [hg.current_eq] at hbefore
  obtain ⟨_, hid, -⟩ := Graph.nodeAt_eq_ok_iff.mp hnode
  obtain ⟨next, hnext, -⟩ :=
    hg.exists_nodeAt (v := label + 1) (by omega) (hg.mem_of_node? hid).2
  refine ⟨next, ?_, hnext⟩
  unfold Graph.successor
  rw [hlabel]
  dsimp only
  rw [if_pos (by rw [hg.current_eq]; exact hbefore), hnext]
  rfl

end Built

/-- **No id leads out of the graph.** -/
structure Graph.InRange (graph : Graph) : Prop where
  index : ∀ {name version id}, graph.index.resolve name version = .ok id → id < graph.nodes.size
  target : ∀ {id : NodeId} {node : Node}, graph.nodes[id]? = some node →
    ∀ other ∈ node.kind.targets, other < graph.nodes.size

theorem Built.inRange (hg : Built replayed 0 graph.sketch) : graph.InRange := by
  have hindex : ∀ {name version id}, graph.index.node? name version = some id →
      id < graph.nodes.size := by
    intro name version id h
    obtain ⟨hv, hname⟩ := hg.mem_of_node? h
    obtain ⟨node, -, hid, hget, -⟩ := hg.exists_nodeAt hv hname
    obtain rfl := Option.some.inj (hid.symm.trans h)
    exact (Array.getElem?_eq_some_iff.mp hget).1
  refine ⟨fun h => hindex (Index.resolve_eq_ok_iff.mp h), fun hget other hother => ?_⟩
  obtain ⟨version, -, hnode, -⟩ := hg.exists_owner hget
  obtain ⟨-, -, hrep⟩ := hg.represents_of_nodeAt hnode
  obtain ⟨name, -, hid⟩ := (Replayed.mem_targets_iff hrep.kind).mp hother
  exact hindex hid

/-! ## Members keep their numbers -/

/-- A declared member is found by its name, with its place. -/
theorem find?_member {target : String → Option NodeId} {declared : List String} {first : Nat}
    {members : List Member} (hnodup : declared.Nodup)
    (h : List.Forall₂ (Member.Matches target) (declared.zipIdx first) members)
    {entry : String × Nat} (hentry : entry ∈ declared.zipIdx first) :
    ∃ member, members.find? (fun later => later.name == entry.1) = some member ∧
      member.Matches target entry := by
  induction declared generalizing first members with
  | nil => cases hentry
  | cons name rest ih =>
    obtain ⟨hnot, hnodup⟩ := List.nodup_cons.mp hnodup
    rw [List.zipIdx_cons] at h hentry
    cases h with
    | cons hfirst hrest =>
      rename_i member later
      rcases List.mem_cons.mp hentry with rfl | hlater
      · exact ⟨member, List.find?_cons_of_pos (by rw [hfirst.name]; exact beq_self_eq_true _),
          hfirst⟩
      · obtain ⟨found, hfound, hmatches⟩ := ih hnodup hrest hlater
        have hother : ¬(member.name == entry.1) = true := by
          rw [hfirst.name, beq_iff_eq]
          intro hsame
          have hmem := List.fst_mem_of_mem_zipIdx hlater
          rw [← hsame] at hmem
          exact hnot hmem
        refine ⟨found, ?_, hmatches⟩
        rw [List.find?_cons_of_neg (p := fun later : Member => later.name == entry.1) hother]
        exact hfound

theorem Graph.checkMembers_eq_ok {members : List Member}
    (h : ∀ member ∈ members, ∃ later,
      next.members.find? (fun later => later.name == member.name) = some later ∧
        later.discriminant = member.discriminant) :
    checkMembers node next members = .ok () := by
  induction members with
  | nil => rfl
  | cons member rest ih =>
    obtain ⟨hfirst, hrest⟩ := List.forall_mem_cons.mp h
    obtain ⟨later, hlater, hsame⟩ := hfirst
    rw [checkMembers, hlater]
    dsimp only
    rw [if_pos hsame]
    exact ih hrest

namespace Blueprint.Describes

variable {blueprint : Blueprint} {target : String → Option NodeId} {kind : NodeKind}

theorem exists_super (h : blueprint.Describes target v name kind)
    (hentry : blueprint.entries.get? name = some (.declared .super)) :
    ∃ members, kind = .super members ∧ List.Forall₂ (Member.Matches target)
      ((blueprint.definition.superTypes.get? name).getD []).zipIdx members := by
  cases h with
  | super hentry' hmembers => exact ⟨_, rfl, hmembers⟩
  | base hentry' => cases hentry.symm.trans hentry'
  | custom hentry' => cases hentry.symm.trans hentry'
  | native hentry' => cases hentry.symm.trans hentry'
  | nullable hentry' => cases hentry.symm.trans hentry'
  | array hentry' => cases hentry.symm.trans hentry'

theorem exists_base (h : blueprint.Describes target v name kind)
    (hentry : blueprint.entries.get? name = some (.declared .base)) :
    ∃ layout fields, blueprint.history.layout? v name = some layout ∧ kind = .base fields ∧
      List.Forall₂ (NodeField.Matches target) layout.entries fields := by
  cases h with
  | base hentry' hlayout hfields => exact ⟨_, _, hlayout, rfl, hfields⟩
  | super hentry' => cases hentry.symm.trans hentry'
  | custom hentry' => cases hentry.symm.trans hentry'
  | native hentry' => cases hentry.symm.trans hentry'
  | nullable hentry' => cases hentry.symm.trans hentry'
  | array hentry' => cases hentry.symm.trans hentry'

theorem exists_wrapped {ref : TypeRef} (h : blueprint.Describes target v name kind)
    (hentry : blueprint.entries.get? name = some (.wrapper ref)) :
    ∃ id, target ref.name = some id ∧ (ref.modifier = .nullable ∧ kind = .nullable id ∨
      ref.modifier = .array ∧ kind = .array id) := by
  cases h with
  | nullable hentry' hwrapped =>
    obtain rfl := Entry.wrapper.inj (Option.some.inj (hentry.symm.trans hentry'))
    exact ⟨_, hwrapped, .inl ⟨rfl, rfl⟩⟩
  | array hentry' hwrapped =>
    obtain rfl := Entry.wrapper.inj (Option.some.inj (hentry.symm.trans hentry'))
    exact ⟨_, hwrapped, .inr ⟨rfl, rfl⟩⟩
  | base hentry' => cases hentry.symm.trans hentry'
  | super hentry' => cases hentry.symm.trans hentry'
  | custom hentry' => cases hentry.symm.trans hentry'
  | native hentry' => cases hentry.symm.trans hentry'

end Blueprint.Describes

namespace Built

variable (hr : replayed.Sound) (hg : Built replayed 0 graph.sketch)

include hr

omit hg in
theorem nodup_members (name : String) :
    ((replayed.definition.superTypes.get? name).getD []).Nodup := by
  cases hget : replayed.definition.superTypes.get? name with
  | none => exact List.nodup_nil
  | some members => exact (hr.definition.member hget).1

include hg

/-- **The members of a union node are found again** in the next node, under their numbers. -/
theorem exists_later_member {members : List Member} (hkind : node.kind = .super members)
    {label : Nat} (hnode : graph.nodeAt name v = .ok node)
    (hnext : graph.nodeAt name label = .ok next) {member : Member} (hmember : member ∈ members) :
    ∃ later, next.members.find? (fun later => later.name == member.name) = some later ∧
      later.discriminant = member.discriminant ∧
        graph.index.node? member.name v = some member.target ∧
          graph.index.node? member.name label = some later.target := by
  obtain ⟨-, -, hrep⟩ := hg.represents_of_nodeAt hnode
  obtain ⟨-, -, hrep'⟩ := hg.represents_of_nodeAt hnext
  have hdescribes := hrep.kind
  rw [hkind] at hdescribes
  cases hdescribes with
  | super hentry hmembers =>
    obtain ⟨members', hkind', hmembers'⟩ := hrep'.kind.exists_super hentry
    obtain ⟨entry, hmem, hmatches⟩ := exists_left_of_forall₂ hmembers hmember
    obtain ⟨later, hlater, hmatches'⟩ :=
      find?_member (nodup_members hr name) hmembers' hmem
    refine ⟨later, ?_, ?_, ?_, ?_⟩
    · rw [Node.members, hkind', hmatches.name]
      exact hlater
    · rw [hmatches.discriminant, hmatches'.discriminant]
    · rw [hmatches.name]
      exact hmatches.target
    · rw [hmatches.name]
      exact hmatches'.target

/-- **No discriminant changes**, and no member goes. -/
theorem checkDiscriminants_eq_ok {nodes : List Node}
    (hnodes : ∀ node ∈ nodes, ∃ id : NodeId, graph.nodes[id]? = some node) :
    graph.checkDiscriminants nodes = .ok () := by
  induction nodes with
  | nil => rfl
  | cons node rest ih =>
    obtain ⟨⟨id, hget⟩, hrest⟩ := List.forall_mem_cons.mp hnodes
    unfold Graph.checkDiscriminants
    split
    · rename_i members hkind
      refine bind_eq_ok.mpr ?_
      cases hlabel : node.version with
      | none =>
        have hnone : graph.successor node = .ok none := by rw [Graph.successor, hlabel]
        exact ⟨none, hnone, ih hrest⟩
      | some label =>
        by_cases hbefore : label < graph.current
        · obtain ⟨next, hnext, hnode⟩ := hg.exists_successor hget hlabel hbefore
          refine ⟨some next, hnext, ?_⟩
          have hchecked : Graph.checkMembers node next members = .ok () := by
            refine Graph.checkMembers_eq_ok fun member hmember => ?_
            obtain ⟨later, hlater, hsame, -⟩ := exists_later_member hr hg hkind
              (hg.nodeAt_label hget hlabel).2 hnode hmember
            exact ⟨later, hlater, hsame⟩
          dsimp only
          rw [hchecked]
          exact ih hrest
        · have hnone : graph.successor node = .ok none := by
            rw [Graph.successor, hlabel]
            exact if_neg hbefore
          exact ⟨none, hnone, ih hrest⟩
    · exact ih hrest

end Built

/-- **The current version is built on nothing.** -/
theorem Replayed.Sound.exists_first (hr : replayed.Sound) :
    ∃ first, Sketch.extend replayed.blueprint replayed.chain.currentIndex (fun _ => true) ∅
        ⟨#[], .ofReferences ((List.range replayed.chain.size).map replayed.blueprint.row), []⟩ =
        .ok first ∧ Built replayed replayed.chain.currentIndex first := by
  have hsize : replayed.chain.currentIndex + 1 = replayed.chain.size :=
    Nat.sub_add_cancel hr.chain.nonempty
  have hempty := Built.empty replayed
  rw [← hsize] at hempty
  have hnone : ∀ name, name ∈ (∅ : NameSet) ↔
      replayed.Affected replayed.chain.currentIndex name :=
    fun name => iff_of_false nofun (not_affected_of_size_le hr (by omega))
  rw [← hsize]
  exact hempty.extend hr (by omega) (fun _ _ => iff_of_true rfl (.inl hsize)) hnone

/-- **An accepted schema has a graph**, whatever the number of workers. -/
theorem Replayed.Sound.exists_build (hr : replayed.Sound) (workers : Nat) :
    ∃ graph, Graph.build workers replayed.definition replayed.chain replayed.history = .ok graph ∧
      Built replayed 0 graph.sketch := by
  have hsize : 0 < replayed.chain.size := hr.chain.nonempty
  have hcheck : ¬(decide (replayed.chain.size = 0) ||
      replayed.history.size != replayed.chain.size) = true := by
    rw [hr.history.size]
    simp
    omega
  obtain ⟨first, hfirst, hbuilt⟩ := hr.exists_first
  obtain ⟨last, hlast, hdone⟩ := hbuilt.walkBack hr (Nat.sub_one_lt (by omega))
  have hgraph : Built replayed 0 (Graph.sketch ⟨last.nodes, last.index, last.changed⟩) := hdone
  have hnodes : ∀ node ∈ last.nodes.toList, ∃ id : NodeId, last.nodes[id]? = some node := by
    intro node hnode
    obtain ⟨id, hid⟩ := List.mem_iff_getElem?.mp hnode
    exact ⟨id, by rw [← hid, Array.getElem?_toList]⟩
  refine ⟨_, ?_, hgraph⟩
  rw [Graph.build_eq]
  rw [if_neg hcheck]
  refine bind_eq_ok.mpr ⟨first, ?_, bind_eq_ok.mpr ⟨last, hlast, ?_⟩⟩
  · exact hfirst
  · exact bind_eq_ok.mpr ⟨(), hgraph.checkDiscriminants_eq_ok hr hnodes, rfl⟩

/-! ## Compiled schemas -/

/-- The part of a compilation that is known before its graph. -/
def Compilation.schema (compilation : Compilation) : Replayed :=
  ⟨compilation.definition, compilation.chain, compilation.history⟩

/-- A name that has a node at some version. -/
def Graph.IsName (graph : Graph) (name : String) : Prop :=
  ∃ version, name ∈ graph.index.names version

/-- **What is behind a compilation**: a sound schema, its graph, and the plan that is derived
from both. -/
structure Compilation.Sound (compilation : Compilation) : Prop where
  schema : compilation.schema.Sound
  graph : Built compilation.schema 0 compilation.graph.sketch
  plan : ∃ workers, UpgradePlan.derive workers compilation.chain compilation.history
    compilation.graph = .ok compilation.plan

theorem Compilation.sound_of_compile {config : Config} {workers : Nat} {c : Compilation}
    (h : config.compile workers = .ok c) : c.Sound := by
  obtain ⟨replayed, hreplay, h⟩ := bind_eq_ok.mp h
  obtain ⟨⟨⟩, -, h⟩ := bind_eq_ok.mp h
  obtain ⟨graph, hgraph, h⟩ := bind_eq_ok.mp h
  obtain ⟨plan, hplan, h⟩ := bind_eq_ok.mp h
  obtain rfl := Except.ok.inj h
  have hr := Replayed.sound_of_replay hreplay
  obtain ⟨built, hbuild, hbuilt⟩ := hr.exists_build workers
  obtain rfl := Except.ok.inj (hbuild.symm.trans hgraph)
  exact ⟨hr, hbuilt, workers, hplan⟩

theorem Built.isName_iff (hr : replayed.Sound) (hg : Built replayed 0 graph.sketch) :
    graph.IsName name ↔ name ∈ replayed.blueprint.names := by
  constructor
  · rintro ⟨version, hname⟩
    have hsize : graph.index.size = replayed.chain.size := hg.size
    exact (hg.mem_names_iff (hsize ▸ Index.lt_size_of_mem_names hname)).mp hname
  · intro hname
    exact ⟨0, (hg.mem_names_iff hr.chain.nonempty).mpr hname⟩

/-! ## A small schema -/

/-- A small schema: the fields of `B` get a new place and a new type, and hold records of `A` that
get a field themselves. -/
def Config.sample : Config where
  currentVersion := "b"
  baseTypes := .ofList [("A", { fields := .ofList [("x", "int")] }),
    ("B", { fields := .ofList [("a", "A[]"), ("n", "int")] })]
  versions := .ofList [("a", {}), ("b", { previous := some "a", transformations :=
    [⟨"A", .insert "y" "int" "c.Y" ["x"] none⟩, ⟨"B", .convert "n" "string" "c.N" ["a"]⟩,
      ⟨"B", .move "n" "m" (some 0)⟩] })]

/-- The upgrade of `B` in the sample. -/
def UpgradePath.sample : UpgradePath where
  type := "B"
  source := ⟨"B", some 0⟩
  target := ⟨"B", some 1⟩
  body := .record [.convert "n" 1, .move "n" "m", .upgrade "a" [⟨"A", some 1⟩]]
    [⟨"m", ⟨"string", .plain⟩, .convert 1 (some [⟨"a", ⟨"A", .array⟩⟩]) (.oldField "n")⟩,
      ⟨"a", ⟨"A", .array⟩, .upgrade .array ⟨"A", some 0⟩ [⟨"A", some 1⟩] (.oldField "a")⟩]

set_option maxRecDepth 20000 in
theorem Config.compile_sample :
    (Config.sample.compile 1).toOption.map (fun c => (c.graph.versionCount,
      (c.graph.index.names 0).contains "B", (c.history.layout? 0 "B").map OrderedMap.keys,
      c.plan.references, c.plan.paths.getLast?)) =
    some (2, true, some ["a", "n"], [.construct "c.Y", .construct "c.N"],
      some UpgradePath.sample) := by
  cbv

/-- The sample compiles, and has `B` at two versions with an upgrade between them. -/
theorem Config.exists_compile_sample :
    ∃ c layout, Config.sample.compile 1 = .ok c ∧ c.graph.versionCount = 2 ∧
      c.graph.IsName "B" ∧ c.history.layout? 0 "B" = some layout ∧ layout.keys = ["a", "n"] ∧
        c.plan.references = [.construct "c.Y", .construct "c.N"] ∧
          UpgradePath.sample ∈ c.plan.paths := by
  have hsample := Config.compile_sample
  cases hcompile : Config.sample.compile 1 with
  | error e =>
    rw [hcompile] at hsample
    cases hsample
  | ok c =>
    rw [hcompile] at hsample
    simp only [Except.toOption, Option.map_some, Option.some.injEq, Prod.mk.injEq,
      Option.map_eq_some_iff] at hsample
    obtain ⟨hcount, hname, ⟨layout, hlayout, hkeys⟩, hreferences, hpath⟩ := hsample
    exact ⟨c, layout, rfl, hcount, ⟨0, List.contains_iff_mem.mp hname⟩, hlayout, hkeys,
      hreferences, List.mem_of_getLast? hpath⟩

end SchemaEvolution

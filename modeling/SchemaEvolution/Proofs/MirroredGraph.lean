import SchemaEvolution.Proofs.Arena
import SchemaEvolution.Proofs.Relabel

/-!
# Graphs that are the same up to labels

When every version of a schema mirrors one of another schema and both graphs build their nodes in
the same order, the nodes are the same up to labels: each has the id, the name and the body of the
other, and every version has the table of the version that it mirrors.

## Main definitions

* `Node.relabel`: the node with a new label

## Main results

* `Replayed.Embeds.entries_eq`: schemas that embed into each other have the same names
* `Replayed.Mirrors.describes`: the body of a name at mirrored versions
* `Built.node?_mirrored`, `Built.nodes_mirrored`, `Built.table_mirrored`: the index, the arena and
  the tables
-/

namespace SchemaEvolution

open Blueprint

/-- **The node with a new label**: it keeps its id, its name and its body. -/
def Node.relabel (rename : Relabeling) (node : Node) : Node :=
  { node with version := node.version.map (rename node.name) }

variable {replayed replayed' : Replayed} {graph graph' : Graph} {rename : Relabeling}
  {v v' : Nat} {name : String} {kind : NodeKind}

theorem Node.eq_relabel {node node' : Node} (hid : node'.id = node.id)
    (hidentity : node'.identity = node.identity.relabel rename) (hkind : node'.kind = node.kind) :
    node' = node.relabel rename := by
  obtain ⟨id, name, version, kind⟩ := node
  obtain ⟨id', name', version', kind'⟩ := node'
  obtain ⟨hname, hversion⟩ := Identity.mk.inj hidentity
  dsimp only [Node.identity] at hid hname hversion hkind
  rw [Node.relabel, hid, hname, hversion, hkind]

/-! ## Names and bodies -/

/-- **Schemas that embed into each other have the same names**, and these stand for the same. -/
theorem Replayed.Embeds.entries_eq (he : replayed.Embeds replayed')
    (he' : replayed'.Embeds replayed) (hr : replayed.Sound) (hr' : replayed'.Sound) :
    replayed'.blueprint.entries = replayed.blueprint.entries := by
  refine SortedMap.eq_of_get? fun name => ?_
  cases hentry : replayed.blueprint.entries.get? name with
  | some entry => exact he.get?_entries hr hr' hentry
  | none =>
    cases hentry' : replayed'.blueprint.entries.get? name with
    | none => rfl
    | some entry => cases hentry.symm.trans (he'.get?_entries hr' hr hentry')

theorem Replayed.Embeds.names_eq (he : replayed.Embeds replayed')
    (he' : replayed'.Embeds replayed) (hr : replayed.Sound) (hr' : replayed'.Sound) :
    replayed'.blueprint.names = replayed.blueprint.names := by
  rw [names, names, he.entries_eq he' hr hr']

/-- A name has one body at a version. -/
theorem Blueprint.Describes.unique {blueprint : Blueprint} {index : Index} {kind' : NodeKind}
    (h : blueprint.Describes (index.node? · v) v name kind)
    (h' : blueprint.Describes (index.node? · v) v name kind') : kind = kind' :=
  Except.ok.inj ((body_eq_ok_iff.mpr h).symm.trans (body_eq_ok_iff.mpr h'))

/-- **The body of a name at a mirrored version** is the same, once the nodes of all names are. -/
theorem Replayed.Mirrors.describes (hm : replayed.Mirrors replayed' rename v v')
    (he : replayed.Embeds replayed') (hr : replayed.Sound) (hr' : replayed'.Sound)
    (hcustoms : replayed'.definition.customTypes = replayed.definition.customTypes)
    {target target' : String → Option NodeId} (htarget : ∀ other, target' other = target other)
    (h : replayed.blueprint.Describes target v name kind) :
    replayed'.blueprint.Describes target' v' name kind := by
  obtain rfl : target' = target := funext htarget
  cases h with
  | base hentry hlayout hfields =>
    exact .base (he.get?_entries hr hr' hentry) ((hm.layout name).trans hlayout) hfields
  | super hentry hmembers =>
    refine .super (he.get?_entries hr hr' hentry) ?_
    have hsame : replayed'.blueprint.definition.superTypes =
        replayed.blueprint.definition.superTypes := he.superTypes
    rwa [hsame]
  | custom hentry hcustom =>
    refine .custom (he.get?_entries hr hr' hentry) ?_
    have hsame : replayed'.blueprint.definition.customTypes =
        replayed.blueprint.definition.customTypes := hcustoms
    rwa [hsame]
  | native hentry => exact .native (he.get?_entries hr hr' hentry)
  | nullable hentry hwrapped => exact .nullable (he.get?_entries hr hr' hentry) hwrapped
  | array hentry hwrapped => exact .array (he.get?_entries hr hr' hentry) hwrapped

/-! ## The graph -/

namespace Built

variable {back : Nat → Nat} (hr : replayed.Sound) (hr' : replayed'.Sound)
  (hg : Built replayed 0 graph.sketch) (hg' : Built replayed' 0 graph'.sketch)
  (he : replayed.Embeds replayed') (he' : replayed'.Embeds replayed)
  (hm : ∀ {w}, w < replayed'.chain.size → replayed.Mirrors replayed' rename (back w) w)
  (hi : graph'.nodes.toList.map Node.identity =
    (graph.nodes.toList.map Node.identity).map (Identity.relabel rename))

/-- Under one id both graphs have nodes of one identity, up to labels. -/
theorem identity_mirrored (hi : graph'.nodes.toList.map Node.identity =
      (graph.nodes.toList.map Node.identity).map (Identity.relabel rename)) (id : NodeId) :
    (graph'.nodes[id]?).map Node.identity =
      (graph.nodes[id]?).map fun node => node.identity.relabel rename := by
  have hget := congrArg (fun identities : List Identity => identities[id]?) hi
  simp only [List.getElem?_map, Array.getElem?_toList, Option.map_map] at hget
  exact hget

include hr hr' hg hg' he he' hm hi

/-- **The index has the same nodes** at mirrored versions. -/
theorem node?_mirrored {w : Nat} (hw : w < replayed'.chain.size) (name : String) :
    graph'.index.node? name w = graph.index.node? name (back w) := by
  by_cases hname : name ∈ replayed.blueprint.names
  · obtain ⟨node, hnode, hid, hget, -⟩ := hg.exists_nodeAt (hm hw).lt_size hname
    obtain ⟨node', hnode', hid', hget', -⟩ := hg'.exists_nodeAt hw (he.mem_names hr hr' hname)
    have hidentity := (hm hw).identity_eq hr hr' hg hg' he hnode hnode'
    have hmirrored := identity_mirrored hi node.id
    rw [hget, Option.map_some, ← hidentity] at hmirrored
    obtain ⟨other, hother, hsame⟩ := Option.map_eq_some_iff.mp hmirrored
    rw [hid, hid', hg'.identity_inj hr' hget' hother hsame.symm]
  · have hnone : graph.index.node? name (back w) = none := by
      rw [Option.eq_none_iff_forall_not_mem]
      intro id hid
      exact hname (hg.mem_of_node? hid).2
    have hnone' : graph'.index.node? name w = none := by
      rw [Option.eq_none_iff_forall_not_mem]
      intro id hid
      exact hname (he'.mem_names hr' hr (hg'.mem_of_node? hid).2)
    rw [hnone, hnone']

/-- **The arenas are the same** up to labels. -/
theorem nodes_mirrored
    (hcustoms : replayed'.definition.customTypes = replayed.definition.customTypes) :
    graph'.nodes = graph.nodes.map (Node.relabel rename) := by
  refine Array.ext_getElem? fun id => ?_
  have hmirrored := identity_mirrored hi id
  rw [Array.getElem?_map]
  cases hget' : graph'.nodes[id]? with
  | none =>
    rw [hget', Option.map_none, eq_comm, Option.map_eq_none_iff] at hmirrored
    rw [hmirrored, Option.map_none]
  | some node' =>
    rw [hget', Option.map_some, eq_comm] at hmirrored
    obtain ⟨node, hget, hidentity⟩ := Option.map_eq_some_iff.mp hmirrored
    obtain ⟨hid, -⟩ := hg.owner hget
    obtain ⟨hid', -⟩ := hg'.owner hget'
    obtain ⟨w, hw, hnode', -⟩ := hg'.exists_owner hget'
    obtain ⟨hbound', -, hrep'⟩ := hg'.represents_of_nodeAt hnode'
    have hbound : graph.index.node? node'.name (back w) = some id := by
      rw [← node?_mirrored hr hr' hg hg' he he' hm hi hw, hbound', hid']
    have hnode : graph.nodeAt node'.name (back w) = .ok node :=
      Graph.nodeAt_eq_ok_iff.mpr ⟨id, hbound, hget⟩
    obtain ⟨-, -, hrep⟩ := hg.represents_of_nodeAt hnode
    have hkind : node'.kind = node.kind := hrep'.kind.unique ((hm hw).describes he hr hr' hcustoms
      (fun other => node?_mirrored hr hr' hg hg' he he' hm hi hw other) hrep.kind)
    rw [hget, Option.map_some, Node.eq_relabel (hid'.trans hid.symm) hidentity.symm hkind]

/-- **The tables are the same** at mirrored versions. -/
theorem table_mirrored {w : Nat} (hw : w < replayed'.chain.size) :
    graph'.table w = graph.table (back w) := by
  have hnames : graph.index.names (back w) = replayed.blueprint.names := hg.names (hm hw).lt_size
  have hnames' : graph'.index.names w = replayed'.blueprint.names := hg'.names hw
  rw [Graph.table_eq, Graph.table_eq, hnames, hnames', he.names_eq he' hr hr']
  refine List.filterMap_congr fun name _ => ?_
  rw [node?_mirrored hr hr' hg hg' he he' hm hi hw]

end Built

end SchemaEvolution

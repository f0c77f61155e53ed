import SchemaEvolution.Proofs.TypeGraph

/-!
# Shared nodes are right at every version

A node is built once, for the version of its label, and then stands for its name at earlier
versions as well. It is right at all of them: it says what the schema has for the name at the
version that is asked for, and it refers to the nodes of that version.

## Main definitions

* `Graph.Points`: an id is that of the node in force for a name at a version
* `Compilation.DescribedBy`: a node says what the schema has for a name at a version

## Main results

* `Compilation.nodeAt_describedBy`: the node in force describes its name, at every version
-/

namespace SchemaEvolution

/-- The id is that of the node in force for a name at a version. -/
def Graph.Points (graph : Graph) (version : Nat) (name : String) (id : NodeId) : Prop :=
  ∃ node, graph.nodeAt name version = .ok node ∧ node.id = id

/-- **A node says what the schema has for a name at a version**: the fields of the layout, the
members in order, or the wrapped type, each with the node that is in force for it then. -/
structure Compilation.DescribedBy (c : Compilation) (version : Nat) (name : String)
    (node : Node) : Prop where
  named : node.name = name
  base : name ∈ c.definition.baseTypes → ∃ layout fields,
    c.history.layout? version name = some layout ∧ node.kind = .base fields ∧
      List.Forall₂ (fun entry field => field.name = entry.1 ∧ field.type = entry.2 ∧
        c.graph.Points version entry.2.canonical field.target) layout.entries fields
  super : ∀ declared, c.definition.superTypes.get? name = some declared →
    declared.length < 2 ^ 32 → ∃ members, node.kind = .super members ∧
      List.Forall₂ (fun entry member => member.name = entry.1 ∧
        member.discriminant.toNat = entry.2 ∧ c.graph.Points version entry.1 member.target)
        declared.zipIdx members
  wrapper : ∀ ref : TypeRef, ref.isWrapped = true → ref.canonical = name → ∃ wrapped,
    c.graph.Points version ref.name wrapped ∧
      (ref.modifier = .nullable ∧ node.kind = .nullable wrapped ∨
        ref.modifier = .array ∧ node.kind = .array wrapped)
  targets : ∀ other, (∃ id ∈ node.kind.targets, ∃ target, c.graph.node id = .ok target ∧
    target.name = other) ↔ other ∈ c.graph.index.references name version

section Built

variable {replayed : Replayed} {graph : Graph} {v : Nat} {name : String} {id : NodeId}
  (hg : Built replayed 0 graph.sketch)

include hg

theorem Built.points_of_node? (h : graph.index.node? name v = some id) :
    graph.Points v name id := by
  obtain ⟨hv, hname⟩ := hg.mem_of_node? h
  obtain ⟨node, hnode, hid, -⟩ := hg.exists_nodeAt hv hname
  exact ⟨node, hnode, Option.some.inj (hid.symm.trans h)⟩

/-- The node under an id that the index holds for a name has that name. -/
theorem Built.exists_node_named (h : graph.index.node? name v = some id) :
    ∃ target, graph.node id = .ok target ∧ target.name = name := by
  obtain ⟨hv, hname⟩ := hg.mem_of_node? h
  obtain ⟨node, -, hid, hget, hrep⟩ := hg.exists_nodeAt hv hname
  obtain rfl := Option.some.inj (hid.symm.trans h)
  exact ⟨node, Graph.node_eq_ok_iff.mpr hget, hrep.named⟩

end Built

/-! ## The node in force -/

namespace Compilation

variable {c : Compilation} {version : Nat} {name : String} {node : Node}

/-- A node that stands for a name says what the schema has for it. -/
theorem describedBy_of_represents (hc : c.Sound) (hv : version < c.chain.size)
    (hname : name ∈ c.schema.blueprint.names)
    (h : c.schema.Represents c.graph.index version name node) :
    c.DescribedBy version name node where
  named := h.named
  base hbase := by
    obtain ⟨layout, fields, hlayout, hkind, hfields⟩ :=
      h.kind.exists_base (Replayed.entry_declared_iff.mpr (hc.schema.definition.base.mpr hbase))
    exact ⟨layout, fields, hlayout, hkind, hfields.imp fun _ _ hfield =>
      ⟨hfield.name, hfield.type, hc.graph.points_of_node? hfield.target⟩⟩
  super declared hget hlength := by
    have hsuper := hc.schema.definition.super.mpr (OrderedMap.mem_of_get? hget)
    obtain ⟨members, hkind, hmembers⟩ :=
      h.kind.exists_super (Replayed.entry_declared_iff.mpr hsuper)
    have hdeclared : (c.schema.blueprint.definition.superTypes.get? name).getD [] = declared :=
      congrArg (Option.getD · []) hget
    rw [hdeclared] at hmembers
    have hplace : ∀ entry ∈ declared.zipIdx, entry.2 < 2 ^ 32 := fun entry hentry =>
      Nat.lt_trans (List.snd_lt_of_mem_zipIdx hentry) hlength
    exact ⟨members, hkind, ((List.forall₂_and_left _ _).mpr ⟨hplace, hmembers⟩).imp
      fun entry member ⟨hlt, hmember⟩ => ⟨hmember.name,
        by rw [hmember.discriminant, UInt32.toNat_ofNat_of_lt' hlt],
        hc.graph.points_of_node? hmember.target⟩⟩
  wrapper ref hwrapped hcanonical := by
    subst hcanonical
    have hentry := hc.schema.entry_of_canonical_mem_names hwrapped hname
    obtain ⟨id, hid, hkind⟩ := h.kind.exists_wrapped hentry
    exact ⟨id, hc.graph.points_of_node? hid, hkind⟩
  targets other := by
    have hrefers : c.graph.index.references name version =
        c.schema.blueprint.referencesAt version name := hc.graph.references hv name
    rw [hrefers]
    constructor
    · rintro ⟨id, hid, target, htarget, rfl⟩
      obtain ⟨other, hother, hnode⟩ := (Replayed.mem_targets_iff h.kind).mp hid
      obtain ⟨target', htarget', rfl⟩ := hc.graph.exists_node_named hnode
      obtain rfl := Except.ok.inj (htarget.symm.trans htarget')
      exact hother
    · intro hother
      obtain ⟨node, -, hid, -⟩ :=
        hc.graph.exists_nodeAt hv (hc.schema.mem_names_of_mem_referencesAt hother)
      exact ⟨node.id, (Replayed.mem_targets_iff h.kind).mpr ⟨other, hother, hid⟩,
        hc.graph.exists_node_named hid⟩

/-- **The node in force describes its name**, at every version and for every name of the
graph. -/
theorem nodeAt_describedBy {config : Config} {workers : Nat} (h : config.compile workers = .ok c)
    (hv : version < c.graph.versionCount) (hname : c.graph.IsName name) :
    ∃ node, c.graph.nodeAt name version = .ok node ∧ c.DescribedBy version name node := by
  have hc := sound_of_compile h
  have hv : version < c.chain.size := hc.graph.versionCount_eq ▸ hv
  have hname := (hc.graph.isName_iff hc.schema).mp hname
  obtain ⟨node, hnode, -, -, hrep⟩ := hc.graph.exists_nodeAt hv hname
  exact ⟨node, hnode, describedBy_of_represents hc hv hname hrep⟩

theorem nodeAt_describedBy_sample : ∃ c node, Config.sample.compile 1 = .ok c ∧
    0 < c.graph.versionCount ∧ c.graph.IsName "B" ∧ c.graph.nodeAt "B" 0 = .ok node ∧
      c.DescribedBy 0 "B" node := by
  obtain ⟨c, -, hc, hcount, hname, -⟩ := Config.exists_compile_sample
  have hv : 0 < c.graph.versionCount := by omega
  obtain ⟨node, hnode, hdescribed⟩ := nodeAt_describedBy hc hv hname
  exact ⟨c, node, hc, hv, hname, hnode, hdescribed⟩

end Compilation

end SchemaEvolution

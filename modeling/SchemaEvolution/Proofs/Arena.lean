import SchemaEvolution.Proofs.Labels

/-!
# The order of the arena

The nodes of the current version come first, then those of each version before it. Among the nodes
of one version there is one for every name that changes behind it, by name. Since a node is labelled
with the version that it is built for, the changed sets alone say which identity has which id.

## Main definitions

* `Blueprint.identityAt`: the identity of the node that is built for a name at a version
* `Graph.ends`: a name changes behind a version, or the version is the last
* `Blueprint.builtAt`: the identities of all nodes that are built for a version

## Main results

* `Built.identities_extend`: one more version puts its nodes behind all others
* `Built.identities_walkBack`: the walk back goes on in this way
* `Graph.identities_of_build`: the identities of all nodes, in the order of their ids
* `Graph.table_eq`: a table lists the names with the nodes of the index
-/

namespace SchemaEvolution

/-- The identity of the node that is built for a name at a version. -/
def Blueprint.identityAt (blueprint : Blueprint) (version : Nat) (name : String) : Identity :=
  ⟨name, if blueprint.evolves name then some version else none⟩

/-- The identities of the nodes so far. -/
def Sketch.identities (sketch : Sketch) : List Identity := sketch.nodes.toList.map Node.identity

/-- A name changes behind a version, or the version is the last. -/
def Graph.ends (graph : Graph) (version : Nat) (name : String) : Bool :=
  version + 1 == graph.versionCount || graph.changes version name

/-- **The identities of the nodes that are built for a version**, by name. -/
def Blueprint.builtAt (blueprint : Blueprint) (graph : Graph) (version : Nat) : List Identity :=
  (blueprint.names.filter (graph.ends version)).map (blueprint.identityAt version)

variable {replayed : Replayed} {graph : Graph} {sketch sketch' : Sketch} {v workers : Nat}
  {name : String}

namespace Built

theorem ends_iff (hg : Built replayed 0 graph.sketch) (hv : v < replayed.chain.size) :
    graph.ends v name = true ↔ v + 1 = replayed.chain.size ∨ replayed.Affected v name := by
  rw [Graph.ends, Bool.or_eq_true, beq_iff_eq, hg.versionCount_eq, hg.changes_iff hv]

/-- **One more version puts its nodes behind all others**, one for each name that ends there. -/
theorem identities_extend (hd : Built replayed (v + 1) sketch) (hv : v < replayed.chain.size)
    (hg : Built replayed 0 graph.sketch) {isNew : String → Bool} {set : NameSet}
    (hnew : ∀ name ∈ replayed.blueprint.names,
      isNew name = true ↔ v + 1 = replayed.chain.size ∨ replayed.Affected v name)
    (h : sketch.extend replayed.blueprint v isNew set = .ok sketch') :
    sketch'.identities = sketch.identities ++ replayed.blueprint.builtAt graph v := by
  obtain ⟨index', hreserve, -, -⟩ := hd.exists_reserved hv hnew
  unfold Sketch.extend at h
  rw [hreserve, ok_bind] at h
  obtain ⟨nodes, hnodes, h⟩ := bind_eq_ok.mp h
  obtain rfl := Except.ok.inj h
  -- each job is one for a name that ends at the version, and its node has the label of the version
  have hsame : replayed.blueprint.names.filter isNew =
      replayed.blueprint.names.filter (graph.ends v) := by
    refine List.filter_congr fun name hname => Bool.eq_iff_iff.mpr ?_
    rw [hnew name hname, hg.ends_iff hv]
  rw [mapM_eq_ok_iff] at hnodes
  have hidentities :
      (((replayed.blueprint.names.filter isNew).zipIdx sketch.nodes.size).map Prod.fst).map
        (replayed.blueprint.identityAt v) = nodes.map Node.identity := by
    rw [List.map_map]
    refine map_eq_map_of_forall₂ hnodes fun job node hnode => ?_
    obtain ⟨-, hname, hversion, -⟩ := Blueprint.node_eq_ok_iff.mp hnode
    rw [Node.identity, hname, hversion]
    rfl
  rw [List.zipIdx_map_fst] at hidentities
  rw [Sketch.identities, Array.toList_append, List.map_append, Blueprint.builtAt, ← hsame,
    hidentities]
  rfl

/-- **The walk back puts the nodes of each version behind those of the versions after it.** -/
theorem identities_walkBack (hr : replayed.Sound) (hd : Built replayed v sketch)
    (hv : v < replayed.chain.size) (hg : Built replayed 0 graph.sketch)
    (h : sketch.walkBack replayed.blueprint v = .ok sketch') :
    sketch'.identities =
      sketch.identities ++ (List.range v).reverse.flatMap (replayed.blueprint.builtAt graph) := by
  induction v generalizing sketch with
  | zero =>
    obtain rfl := Except.ok.inj h
    rw [List.range_zero, List.reverse_nil, List.flatMap_nil, List.append_nil]
  | succ v ih =>
    have hlt : v < replayed.chain.size := Nat.lt_of_succ_lt hv
    obtain ⟨next, hnext, hbuilt⟩ := hd.extend hr hlt (fun _ _ => hd.isNew_iff hr hv)
      (fun _ => hd.mem_closure_seed_iff hr hv)
    obtain ⟨next', hnext', hlast⟩ := bind_eq_ok.mp h
    obtain rfl := Except.ok.inj (hnext.symm.trans hnext')
    rw [ih hbuilt hlt hlast, hd.identities_extend hlt hg (fun _ _ => hd.isNew_iff hr hv) hnext,
      List.append_assoc, List.range_succ, List.reverse_concat, List.flatMap_cons]

end Built

namespace Graph

/-- **The identities of all nodes, in the order of their ids**: by version, the last version first,
and by name. -/
theorem identities_of_build (hr : replayed.Sound)
    (h : Graph.build workers replayed.definition replayed.chain replayed.history = .ok graph) :
    graph.nodes.toList.map Node.identity =
      (List.range replayed.chain.size).reverse.flatMap (replayed.blueprint.builtAt graph) := by
  obtain ⟨built, hbuild, hg⟩ := hr.exists_build workers
  obtain rfl := Except.ok.inj (hbuild.symm.trans h)
  have hsize : replayed.chain.currentIndex + 1 = replayed.chain.size :=
    Nat.sub_add_cancel hr.chain.nonempty
  have hlt : replayed.chain.currentIndex < replayed.chain.size := by omega
  obtain ⟨first, hfirst, hbuilt⟩ := hr.exists_first
  rw [Graph.build_eq] at h
  split at h
  · cases h
  · obtain ⟨first', hfirst', h⟩ := bind_eq_ok.mp h
    obtain rfl := Except.ok.inj (hfirst.symm.trans hfirst')
    obtain ⟨last, hlast, h⟩ := bind_eq_ok.mp h
    obtain ⟨⟨⟩, -, h⟩ := bind_eq_ok.mp h
    have hidentities := hbuilt.identities_walkBack hr hlt hg hlast
    have hempty := Built.empty replayed
    rw [← hsize] at hempty hfirst
    rw [hempty.identities_extend hlt hg (fun _ _ => iff_of_true rfl (.inl hsize)) hfirst]
      at hidentities
    rw [← hsize, List.range_succ, List.reverse_concat, List.flatMap_cons]
    obtain rfl := Except.ok.inj h
    exact hidentities

/-- A table lists the names with the nodes of the index. -/
theorem table_eq (graph : Graph) (version : Nat) :
    graph.table version = (graph.index.names version).filterMap fun name =>
      (graph.index.node? name version).map (name, ·) := by
  rw [Graph.table]
  refine List.filterMap_congr fun name _ => ?_
  cases hid : graph.index.node? name version with
  | some id => rw [Index.resolve_eq_ok_iff.mpr hid, Option.map_some]
  | none =>
    split
    · rename_i id hresolve
      cases hid.symm.trans (Index.resolve_eq_ok_iff.mp hresolve)
    · rfl

end Graph

end SchemaEvolution

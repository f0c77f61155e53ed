import SchemaEvolution.Proofs.Arena
import SchemaEvolution.Proofs.ChangedSet
import SchemaEvolution.Proofs.Relabel
import SchemaEvolution.Proofs.Sequencing
import SchemaEvolution.Proofs.Totality

/-!
# The inventory of the graph

The graph knows the types of the catalog, and the wrapped references that are mentioned anywhere in
the schema, be it for a moment only or by an interface only. All of them are known at all versions.
At the current version each name gets a node of its own, and at each version before it those names
get one that change behind it. So the number of nodes can be read off the changed sets, and there is
no node that is not in force somewhere.

## Main definitions

* `Compilation.OccursInData`, `Compilation.OccursInInterfaces`: where references are mentioned

## Main results

* `Chain.exists_step_iff`: the chain has the transformations of all declared versions
* `Compilation.isName_iff_mentioned`: the names of the graph
* `Compilation.length_builtAt`: how many nodes are built for a version
* `Compilation.size_nodes`: how many nodes there are
* `Compilation.inventory_exact`: the names and the nodes of a compiled schema
-/

namespace SchemaEvolution

/-! ## Where references are mentioned -/

/-- **The chain has the transformations of all declared versions.** -/
theorem Chain.exists_step_iff {definition : Definition} {chain : Chain}
    (h : ofDefinition definition = .ok chain) {p : Step → Prop} :
    (∃ place version, chain.get? place = some version ∧
      ∃ step ∈ version.transformations, p step) ↔
    ∃ name declared, definition.versions.get? name = some declared ∧
      ∃ step ∈ declared.transformations, p step := by
  obtain ⟨order, horder, rfl⟩ := enumerates_of_ofDefinition h
  constructor
  · rintro ⟨place, version, hversion, hstep⟩
    obtain ⟨name, hname, -⟩ := exists_of_get?_ofOrder hversion
    obtain ⟨declared, hdeclared, hget⟩ := horder.get?_ofOrder hname
    obtain rfl := Option.some.inj (hversion.symm.trans hget)
    exact ⟨name, declared, hdeclared, hstep⟩
  · rintro ⟨name, declared, hdeclared, hstep⟩
    obtain ⟨place, hname⟩ :=
      List.mem_iff_getElem?.mp ((horder.mem name).mpr (OrderedMap.mem_of_get? hdeclared))
    obtain ⟨found, hfound, hget⟩ := horder.get?_ofOrder hname
    obtain rfl := Option.some.inj (hdeclared.symm.trans hfound)
    exact ⟨place, _, hget, hstep⟩

namespace Compilation

variable {c : Compilation} {config : Config} {workers : Nat} {version : Nat} {name : String}
  {ref : TypeRef} {changed : NameSet}

/-- **A reference occurs in the data**: in a layout at some version, or as what a transformation
introduces, even if the field goes again. -/
def OccursInData (c : Compilation) (ref : TypeRef) : Prop :=
  (∃ version type layout, c.history.layout? version type = some layout ∧ ref ∈ layout.values) ∨
    ∃ name declared, c.definition.versions.get? name = some declared ∧
      ∃ step ∈ declared.transformations, step.change.introduced? = some ref

/-- **A reference occurs in the interfaces**, as the type of a field that one of them declares. -/
def OccursInInterfaces (c : Compilation) (ref : TypeRef) : Prop :=
  ∃ name interface, c.definition.interfaces.get? name = some interface ∧
    ref ∈ interface.fields.values

theorem mem_typeRefs_iff (h : config.compile workers = .ok c) :
    ref ∈ c.schema.typeRefs ↔ c.OccursInData ref ∨ c.OccursInInterfaces ref := by
  have hchain : Chain.ofDefinition c.definition = .ok c.chain := (Config.accepts_of_compile h).chain
  rw [Replayed.mem_typeRefs_iff, OccursInData, or_assoc, ← Chain.exists_step_iff hchain]
  refine or_congr_right (or_congr_right ⟨?_, ?_⟩)
  · rintro ⟨interface, hinterface, href⟩
    obtain ⟨⟨name, interface⟩, hentry, rfl⟩ := List.mem_map.mp hinterface
    exact ⟨name, interface, OrderedMap.get?_eq_some_iff.mpr hentry, href⟩
  · rintro ⟨name, interface, hget, href⟩
    exact ⟨interface, OrderedMap.mem_values_of_get? hget, href⟩

/-- **The names of the graph** are those of the catalog, and the spellings of the wrapped references
that are mentioned anywhere. -/
theorem isName_iff_mentioned (h : config.compile workers = .ok c) :
    c.graph.IsName name ↔ name ∈ c.definition.catalog ∨ ∃ ref : TypeRef, ref.isWrapped = true ∧
      ref.canonical = name ∧ (c.OccursInData ref ∨ c.OccursInInterfaces ref) := by
  have hc := sound_of_compile h
  rw [hc.graph.isName_iff hc.schema, Blueprint.mem_names_iff, ← SortedMap.get?_isSome_iff]
  constructor
  · intro hname
    obtain ⟨entry, hentry⟩ := Option.isSome_iff_exists.mp hname
    cases entry with
    | declared category =>
      have hcategory : c.definition.catalog.category? name = some category :=
        Replayed.entry_declared_iff.mp hentry
      exact .inl (Option.isSome_of_eq_some hcategory)
    | wrapper ref =>
      obtain ⟨href, hwrapped, hcanonical⟩ := hc.schema.entry_wrapper_iff.mp hentry
      exact .inr ⟨ref, hwrapped, hcanonical, (mem_typeRefs_iff h).mp href⟩
  · rintro (hname | ⟨ref, hwrapped, rfl, href⟩)
    · obtain ⟨category, hcategory⟩ := Option.isSome_iff_exists.mp hname
      exact Option.isSome_of_eq_some (Replayed.entry_declared_iff.mpr hcategory)
    · exact Option.isSome_of_eq_some
        (hc.schema.entry_wrapper_iff.mpr ⟨(mem_typeRefs_iff h).mpr href, hwrapped, rfl⟩)

/-! ## How many nodes there are -/

/-- **Before the current version a node is built for each name that changes behind it.** -/
theorem length_builtAt (hc : c.Sound) (hv : version + 1 < c.schema.chain.size)
    (hchanged : c.graph.changedAt? version = some changed) :
    (c.schema.blueprint.builtAt c.graph version).length = changed.size := by
  obtain ⟨found, hfound, hmem⟩ := exists_changedAt hc (Nat.lt_of_succ_lt hv)
  obtain rfl := Option.some.inj (hfound.symm.trans hchanged)
  have hends : ∀ name, c.graph.ends version name = true ↔ name ∈ found := by
    intro name
    rw [hc.graph.ends_iff (Nat.lt_of_succ_lt hv), hmem, or_iff_right (Nat.ne_of_lt hv)]
  have hperm : (c.schema.blueprint.names.filter (c.graph.ends version)).Perm found.keys := by
    refine (List.perm_ext_iff_of_nodup (c.schema.blueprint.entries.distinct.filter _)
      found.distinct).mpr fun name => ?_
    rw [List.mem_filter, hends]
    exact and_iff_right_of_imp fun hname =>
      hc.schema.mem_names_of_affected ((hmem name).mp hname)
  rw [Blueprint.builtAt, List.length_map, hperm.length_eq, SortedMap.keys, List.length_map,
    SortedMap.size]

/-- At the current version a node is built for each name. -/
theorem length_builtAt_current (hc : c.Sound) (hv : version + 1 = c.schema.chain.size) :
    (c.schema.blueprint.builtAt c.graph version).length = c.schema.blueprint.names.length := by
  have hends : ∀ name ∈ c.schema.blueprint.names, c.graph.ends version name = true := fun _ _ =>
    (hc.graph.ends_iff (Nat.lt_of_succ_le (Nat.le_of_eq hv))).mpr (.inl hv)
  rw [Blueprint.builtAt, List.length_map, List.filter_eq_self.mpr hends]

/-- The sizes of the changed sets are those of what is built before the current version. -/
theorem map_size_changed (hc : c.Sound) {current : Nat}
    (hsize : current + 1 = c.schema.chain.size) :
    c.graph.changed.map SortedMap.size = (List.range current).map
      (fun version => (c.schema.blueprint.builtAt c.graph version).length) ++ [0] := by
  have hcount : c.graph.changed.length = current + 1 := hc.graph.count.trans hsize.symm
  refine List.ext_getElem (by simp [hcount]) fun version hversion hversion' => ?_
  have hlt : version < c.graph.changed.length := by rwa [List.length_map] at hversion
  have hget : c.graph.changedAt? version = some c.graph.changed[version] :=
    List.getElem?_eq_getElem hlt
  rw [List.getElem_map, List.getElem_append]
  split
  next hbefore =>
    rw [List.length_map, List.length_range] at hbefore
    rw [List.getElem_map, List.getElem_range]
    exact (length_builtAt hc (by omega) hget).symm
  next hlast =>
    rw [List.length_map, List.length_range] at hlast
    have hnone : ∀ name, name ∉ c.graph.changed[version] := fun name hname =>
      Replayed.not_affected_of_size_le hc.schema (by omega) ((hc.graph.changed hget name).mp hname)
    rw [SortedMap.eq_empty hnone, List.getElem_singleton]
    rfl

/-- **There is one node for each name, and one more for each name in a changed set.** -/
theorem size_nodes (h : config.compile workers = .ok c) : c.graph.nodes.size =
    c.schema.blueprint.names.length + (c.graph.changed.map SortedMap.size).sum := by
  have hc := sound_of_compile h
  obtain ⟨current, hsize⟩ : ∃ current, current + 1 = c.schema.chain.size :=
    ⟨c.schema.chain.size - 1, Nat.sub_add_cancel hc.schema.chain.nonempty⟩
  -- the nodes of the current version come first, then those of each version before it
  have hlength := congrArg List.length
    (Graph.identities_of_build hc.schema (Config.build_of_compile h))
  rw [List.length_map, Array.length_toList, ← hsize, List.length_flatMap, List.range_succ,
    List.reverse_concat, List.map_cons, List.sum_cons, length_builtAt_current hc hsize,
    List.map_reverse, List.sum_reverse] at hlength
  rw [hlength, map_size_changed hc hsize, List.sum_append, List.sum_singleton, Nat.add_zero]

/-! ## The inventory -/

theorem versionCount_pos (hc : c.Sound) : 0 < c.graph.versionCount := by
  rw [hc.graph.versionCount_eq]
  exact hc.schema.chain.nonempty

/-- **The names are the same at all versions.** -/
theorem names_eq (hc : c.Sound) (hv : version < c.graph.versionCount) :
    c.graph.index.names version = c.schema.blueprint.names := by
  rw [hc.graph.versionCount_eq] at hv
  exact hc.graph.names hv

/-- So the first version has all of them. -/
theorem mem_names_iff_isName (hc : c.Sound) :
    name ∈ c.graph.index.names 0 ↔ c.graph.IsName name := by
  rw [names_eq hc (versionCount_pos hc), hc.graph.isName_iff hc.schema]

/-- **The graph has no duplicate, no orphan and no missing node.** Its names are the same at all
versions: those of the catalog, and the spellings of all wrapped references that are mentioned in
the data or in the interfaces. Every name has a node at every version, and every node is in force
for its name at some version. The id of a node is its place, no two nodes have the same identity,
and there are as many nodes as there are names and entries of changed sets together. -/
theorem inventory_exact (h : config.compile workers = .ok c) :
    0 < c.graph.versionCount ∧
    (∀ version < c.graph.versionCount, c.graph.index.names version = c.graph.index.names 0) ∧
    (∀ name, name ∈ c.graph.index.names 0 ↔ name ∈ c.definition.catalog ∨
      ∃ ref : TypeRef, ref.isWrapped = true ∧ ref.canonical = name ∧
        (c.OccursInData ref ∨ c.OccursInInterfaces ref)) ∧
    (∀ name ∈ c.graph.index.names 0, ∀ version < c.graph.versionCount,
      ∃ node, c.graph.nodeAt name version = .ok node ∧ node.name = name) ∧
    (∀ (id : NodeId) (node : Node), c.graph.nodes[id]? = some node → node.id = id ∧
      ∃ version < c.graph.versionCount, c.graph.nodeAt node.name version = .ok node) ∧
    (c.graph.nodes.toList.map Node.identity).Nodup ∧
    c.graph.changed.length = c.graph.versionCount ∧
    c.graph.nodes.size =
      (c.graph.index.names 0).length + (c.graph.changed.map SortedMap.size).sum := by
  have hc := sound_of_compile h
  have hcount : c.graph.versionCount = c.schema.chain.size := hc.graph.versionCount_eq
  have hfirst : c.graph.index.names 0 = c.schema.blueprint.names :=
    names_eq hc (versionCount_pos hc)
  refine ⟨versionCount_pos hc, fun version hv => (names_eq hc hv).trans hfirst.symm,
    fun name => (mem_names_iff_isName hc).trans (isName_iff_mentioned h),
    fun name hname version hv => ?_, fun id node hget => ?_, hc.graph.nodup_identities hc.schema,
    hc.graph.count.trans hcount.symm, ?_⟩
  · rw [hfirst] at hname
    rw [hcount] at hv
    obtain ⟨node, hnode, -, -, hrep⟩ := hc.graph.exists_nodeAt hv hname
    exact ⟨node, hnode, hrep.named⟩
  · obtain ⟨version, hv, hnode, -⟩ := hc.graph.exists_owner hget
    exact ⟨(hc.graph.owner hget).1, version, hcount.symm ▸ hv, hnode⟩
  · rw [hfirst]
    exact size_nodes h

end Compilation

/-- A schema in which a reference is introduced and goes again within one version, and in which an
interface mentions a reference that no type has. -/
def Config.tagged : Config where
  currentVersion := "b"
  interfaces := .ofList [("Named", { fields := .ofList [("name", "string")] }),
    ("Tagged", { extended := ["Named"], fields := .ofList [("tags", "string[]")] })]
  baseTypes := .ofList [("A", { implemented := ["Named"], fields := .ofList [("name", "string")] }),
    ("P", { fields := .ofList [("a", "A")] })]
  versions := .ofList [("a", {}), ("b", { previous := some "a", transformations :=
    [⟨"P", .insert "t" "-A" "c.T" [] none⟩, ⟨"P", .remove "t"⟩] })]

namespace Compilation

set_option maxRecDepth 20000 in
theorem compile_tagged : (Config.tagged.compile 1).toOption.map (fun c =>
    (["-A", "§string"].all (c.graph.index.names 0).contains, (c.graph.index.names 0).length,
      c.graph.changed.map SortedMap.keys)) = some (true, 15, [["P"], []]) := by
  cbv

theorem exists_compile_tagged : ∃ c, Config.tagged.compile 1 = .ok c ∧
    (∀ name ∈ ["-A", "§string"], name ∈ c.graph.index.names 0) ∧
    (c.graph.index.names 0).length = 15 ∧ c.graph.changed.map SortedMap.keys = [["P"], []] := by
  obtain ⟨c, hcompile, htagged⟩ := Option.map_eq_some_iff.mp compile_tagged
  simp only [Prod.mk.injEq, List.all_eq_true, List.contains_iff_mem] at htagged
  exact ⟨c, toOption_eq_some_iff.mp hcompile, htagged⟩

/-- The two references have nodes at both versions, and there is one node more than names, since
`P` alone changes. -/
theorem inventory_exact_tagged : ∃ c, Config.tagged.compile 1 = .ok c ∧
    (∀ name ∈ ["-A", "§string"], ∀ version < c.graph.versionCount,
      ∃ node, c.graph.nodeAt name version = .ok node) ∧
    c.graph.nodes.size = 16 := by
  obtain ⟨c, h, hnames, hlength, hchanged⟩ := exists_compile_tagged
  obtain ⟨-, -, -, hnode, -, -, -, hsize⟩ := inventory_exact h
  refine ⟨c, h, fun name hname version hv => ?_, ?_⟩
  · obtain ⟨node, hnode, -⟩ := hnode name (hnames name hname) version hv
    exact ⟨node, hnode⟩
  · have hsizes : c.graph.changed.map SortedMap.size = [["P"], []].map List.length := by
      rw [← hchanged, List.map_map]
      exact List.map_congr_left fun set _ => (List.length_map _).symm
    rw [hsize, hlength, hsizes]
    rfl

end Compilation

end SchemaEvolution

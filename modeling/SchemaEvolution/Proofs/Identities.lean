import SchemaEvolution.Proofs.IdentityText

/-!
# Labels say which node is in force

The labels of a name that evolves are the versions behind which it changes and the current
version, and at every version the node with the smallest label from there on is in force. A leaf
has one node without a label, which is in force at all versions. So an identity stands for one node
at most, and looking it up finds that node or nothing.

## Main definitions

* `Compilation.IsEvolving`: a base type, a super type or a wrapper of one

## Main results

* `Built.mem_labels_iff_changes`: the labels are the versions behind which a name changes
* `Built.le_label`: no label lies between a version and the label that is in force there
* `Built.labels_of_leaf`, `Built.nodeAt_leaf`: leaves have no labels and one node
* `Built.resolve_eq_ok_iff`: an identity is that of the node that it is resolved to
* `Compilation.identities_coherent`: labels, identities and look-ups agree
-/

namespace SchemaEvolution

/-! ## Names that evolve -/

namespace Compilation

variable {c : Compilation} {name : String}

/-- The name is that of a base type or a super type. -/
def IsEvolvingType (c : Compilation) (name : String) : Prop :=
  name ∈ c.definition.baseTypes ∨ name ∈ c.definition.superTypes

/-- The name is that of a base type, a super type or a wrapper of one. -/
def IsEvolving (c : Compilation) (name : String) : Prop :=
  c.IsEvolvingType name ∨
    ∃ ref : TypeRef, ref.isWrapped = true ∧ ref.canonical = name ∧ c.IsEvolvingType ref.name

theorem isEvolvingType_iff (hc : c.Sound) : c.IsEvolvingType name ↔
    ∃ category, c.definition.catalog.category? name = some category ∧
      category.evolves = true := by
  have hbase : c.definition.catalog.category? name = some .base ↔ name ∈ c.definition.baseTypes :=
    hc.schema.definition.base
  have hsuper : c.definition.catalog.category? name = some .super ↔
      name ∈ c.definition.superTypes := hc.schema.definition.super
  rw [IsEvolvingType, ← hbase, ← hsuper]
  constructor
  · rintro (h | h)
    · exact ⟨.base, h, rfl⟩
    · exact ⟨.super, h, rfl⟩
  · rintro ⟨category, h, hevolves⟩
    cases category with
    | base => exact .inl h
    | super => exact .inr h
    | custom => cases hevolves
    | native type => cases hevolves

/-- The nodes of a name have versions exactly if it is a type that evolves or wraps one. -/
theorem evolves_iff (hc : c.Sound) (hname : c.graph.IsName name) :
    c.schema.blueprint.evolves name = true ↔ c.IsEvolving name := by
  have hname := (hc.graph.isName_iff hc.schema).mp hname
  obtain ⟨entry, hentry⟩ := Option.isSome_iff_exists.mp (Blueprint.mem_names_iff.mp hname)
  cases entry with
  | declared category =>
    have hcategory : c.definition.catalog.category? name = some category :=
      Replayed.entry_declared_iff.mp hentry
    have hplain : ¬∃ ref : TypeRef, ref.isWrapped = true ∧ ref.canonical = name ∧
        c.IsEvolvingType ref.name := by
      rintro ⟨ref, hwrapped, rfl, -⟩
      exact TypeRef.not_isName_canonical hwrapped (hc.schema.definition.isName hcategory)
    rw [Replayed.evolves_of_category hcategory, IsEvolving, or_iff_left hplain,
      isEvolvingType_iff hc]
    simp [hcategory]
  | wrapper ref =>
    obtain ⟨href, hwrapped, rfl⟩ := hc.schema.entry_wrapper_iff.mp hentry
    obtain ⟨category, hcategory⟩ := Option.isSome_iff_exists.mp (hc.schema.knows_typeRefs href)
    have hnotType : ¬c.IsEvolvingType ref.canonical := by
      intro htype
      obtain ⟨other, hother, -⟩ := (isEvolvingType_iff hc).mp htype
      exact TypeRef.not_isName_canonical hwrapped (hc.schema.definition.isName hother)
    have hinner : c.IsEvolving ref.canonical ↔ c.IsEvolvingType ref.name := by
      rw [IsEvolving, or_iff_right hnotType]
      constructor
      · rintro ⟨other, hother, hsame, htype⟩
        rwa [TypeRef.canonical_inj_of_wrapped hother hwrapped hsame] at htype
      · exact fun htype => ⟨ref, hwrapped, rfl, htype⟩
    rw [hc.schema.evolves_wrapper href hwrapped, Catalog.evolves, hinner, isEvolvingType_iff hc]
    have hcategory' : c.definition.catalog.category? ref.name = some category := hcategory
    rw [hcategory]
    simp [hcategory']

end Compilation

/-! ## Labels -/

namespace Built

variable {replayed : Replayed} {graph : Graph} {v label : Nat} {name : String} {node : Node}
  (hr : replayed.Sound) (hg : Built replayed 0 graph.sketch)

include hr hg

/-- **The labels of a name** are the current version and the versions behind which it changes. -/
theorem mem_labels_iff_changes : label ∈ graph.starts name ++ [graph.current] ↔
    label = graph.current ∨
      ∃ changed, graph.changedAt? label = some changed ∧ name ∈ changed := by
  have hsize : 0 < replayed.chain.size := hr.chain.nonempty
  have hcurrent := hg.current_eq
  rw [List.mem_append, List.mem_singleton, or_comm, hg.mem_starts_iff]
  refine or_congr_right ⟨?_, ?_⟩
  · rintro ⟨hlabel, haffected⟩
    have hchanges := (hg.changes_iff (by omega)).mpr haffected
    rw [Graph.changes] at hchanges
    cases hchanged : graph.changedAt? label with
    | none => simp [hchanged] at hchanges
    | some changed => exact ⟨changed, rfl, by simpa [hchanged] using hchanges⟩
  · rintro ⟨changed, hchanged, hmem⟩
    have haffected := (hg.changed hchanged name).mp hmem
    rw [Nat.zero_add] at haffected
    refine ⟨?_, haffected⟩
    by_contra hlast
    exact Replayed.not_affected_of_size_le hr (by omega) haffected

omit hr in
/-- **No label lies between** a version and the label that is in force there. -/
theorem le_label (h : replayed.LabelAt v name label) :
    label ∈ graph.starts name ++ [graph.current] ∧
      ∀ other ∈ graph.starts name ++ [graph.current], v ≤ other → label ≤ other := by
  have hcurrent := hg.current_eq
  have hlt := h.lt_size
  simp only [List.mem_append, List.mem_singleton, hg.mem_starts_iff]
  constructor
  · rcases h.ends with hlast | haffected
    · exact .inr (by omega)
    · by_cases hlast : label + 1 = replayed.chain.size
      · exact .inr (by omega)
      · exact .inl ⟨by omega, haffected⟩
  · rintro other (⟨-, haffected⟩ | rfl) hle
    · by_contra hbefore
      exact h.stays hle (by omega) haffected
    · omega

/-! ## Leaves -/

/-- **A leaf has one node**, without a version, at all versions. -/
theorem nodeAt_leaf (hname : name ∈ replayed.blueprint.names)
    (hleaf : replayed.blueprint.evolves name = false) :
    ∃ node, node.version = none ∧ ∀ v < replayed.chain.size, graph.nodeAt name v = .ok node := by
  have hsize : 0 < replayed.chain.size := hr.chain.nonempty
  have hlast : ∀ {v}, v < replayed.chain.size →
      replayed.LabelAt v name (replayed.chain.size - 1) := fun hv =>
    ⟨by omega, by omega, .inl (by omega), fun _ _ => hr.not_affected_of_not_evolves hleaf⟩
  obtain ⟨node, hnode, hid, hget, -⟩ := hg.exists_nodeAt hsize hname
  refine ⟨node, ?_, fun v hv => ?_⟩
  · simpa [hleaf] using hg.version_eq_of_labelAt hnode (hlast hsize)
  · refine Graph.nodeAt_eq_ok_iff.mpr ⟨node.id, ?_, hget⟩
    rw [hg.node?_of_labelAt hname (hlast hv), ← hg.node?_of_labelAt hname (hlast hsize), hid]

omit hr hg in
theorem labelsAmong_of_leaf {versions : List Nat} (hnode : node.version = none)
    (h : ∀ v ∈ versions, graph.nodeAt name v = .ok node) (labels : List Nat) :
    graph.labelsAmong name versions labels = .ok labels := by
  induction versions with
  | nil => rfl
  | cons v rest ih =>
    obtain ⟨hfirst, hrest⟩ := List.forall_mem_cons.mp h
    rw [Graph.labelsAmong, hfirst, ok_bind, hnode]
    exact ih hrest

/-- **A leaf has no labels.** -/
theorem labels_of_leaf (hname : name ∈ replayed.blueprint.names)
    (hleaf : replayed.blueprint.evolves name = false) : graph.labels name = .ok [] := by
  obtain ⟨node, hnode, hall⟩ := hg.nodeAt_leaf hr hname hleaf
  refine labelsAmong_of_leaf hnode (fun v hv => hall v ?_) []
  rwa [List.mem_range, hg.versionCount_eq] at hv

/-! ## Looking up identities -/

/-- **An identity is that of the node that it is resolved to**, and every node is found by its
own. -/
theorem resolve_eq_ok_iff {identity : Identity} : graph.resolve identity = .ok node ↔
    node ∈ graph.nodes.toList ∧ node.identity = identity := by
  obtain ⟨name, version⟩ := identity
  constructor
  · intro h
    obtain ⟨found, hfound, h⟩ := bind_eq_ok.mp h
    split at h
    · rename_i hversion
      obtain rfl := Except.ok.inj h
      obtain ⟨-, hget, hrep⟩ := hg.represents_of_nodeAt hfound
      exact ⟨Array.mem_toList_iff.mpr (Array.mem_of_getElem? hget),
        Identity.mk.injEq _ _ _ _ ▸ ⟨hrep.named, hversion⟩⟩
    · cases h
  · rintro ⟨hmem, hidentity⟩
    obtain ⟨rfl, rfl⟩ := Identity.mk.inj hidentity
    obtain ⟨id, hget⟩ := Array.mem_iff_getElem?.mp (Array.mem_toList_iff.mp hmem)
    refine bind_eq_ok.mpr ⟨node, ?_, if_pos rfl⟩
    cases hversion : node.version with
    | some label => exact (hg.nodeAt_label hget hversion).2
    | none =>
      obtain ⟨version, hv, hnode, hlabel⟩ := hg.exists_owner hget
      have hname := (hg.mem_of_node? (hg.represents_of_nodeAt hnode).1).2
      have hleaf : replayed.blueprint.evolves node.name = false := by
        rw [hversion] at hlabel
        split at hlabel
        · cases hlabel
        · rwa [Bool.not_eq_true] at *
      obtain ⟨leaf, -, hall⟩ := hg.nodeAt_leaf hr hname hleaf
      obtain rfl := Except.ok.inj (hnode.symm.trans (hall version hv))
      exact hall 0 hr.chain.nonempty

omit hr in
/-- **An identity that is not resolved** is reported as a type that is not found. -/
theorem resolve_eq_error {identity : Identity} {e : SchemaError}
    (h : graph.resolve identity = .error e) :
    e = .typeNotFound identity.name (identity.version.getD 0) := by
  rcases bind_eq_error.mp h with hnode | ⟨found, -, hversion⟩
  · rcases bind_eq_error.mp hnode with hindex | ⟨id, hid, hmissing⟩
    · exact (Index.resolve_eq_error_iff.mp hindex).2
    · have hlt : id < graph.nodes.size := hg.inRange.index hid
      have hnode : graph.node id = .ok graph.nodes[id] :=
        Graph.node_eq_ok_iff.mpr (Array.getElem?_eq_getElem hlt)
      rw [hnode] at hmissing
      cases hmissing
  · split at hversion
    · cases hversion
    · exact (Except.error.inj hversion).symm

end Built

/-! ## Coherence -/

/-- The label of a version among those of a name: the smallest one from there on. -/
structure IsLabelOf (labels : List Nat) (version label : Nat) : Prop where
  mem : label ∈ labels
  le : version ≤ label
  least : ∀ other ∈ labels, version ≤ other → label ≤ other

/-- **Labels, identities and look-ups agree.** The labels of a base type, a super type or a wrapper
of one are the versions behind which it changes and the current version, in ascending order, and
the smallest label from a version on is that of the node in force. All other names have one node,
without a label. Neither the identities nor their texts repeat, and looking up an identity finds
the node that has it, or reports a type that is not found. -/
theorem Compilation.identities_coherent {config : Config} {workers : Nat} {c : Compilation}
    (h : config.compile workers = .ok c) :
    (∀ name, c.graph.IsName name → c.IsEvolving name → ∃ labels,
      c.graph.labels name = .ok labels ∧ labels.Pairwise (· < ·) ∧
      labels.getLast? = some c.graph.current ∧
      (∀ label, label ∈ labels ↔ label = c.graph.current ∨
        ∃ changed, c.graph.changedAt? label = some changed ∧ name ∈ changed) ∧
      ∀ version < c.graph.versionCount, ∃ node label, c.graph.nodeAt name version = .ok node ∧
        node.version = some label ∧ IsLabelOf labels version label) ∧
    (∀ name, c.graph.IsName name → ¬c.IsEvolving name → c.graph.labels name = .ok [] ∧
      ∃ node, node.version = none ∧
        ∀ version < c.graph.versionCount, c.graph.nodeAt name version = .ok node) ∧
    (∀ (id id' : NodeId) (node node' : Node), c.graph.nodes[id]? = some node →
      c.graph.nodes[id']? = some node' → id ≠ id' →
        node.identity ≠ node'.identity ∧ node.identity.text ≠ node'.identity.text) ∧
    (∀ node ∈ c.graph.nodes.toList, c.graph.resolve node.identity = .ok node) ∧
    ∀ identity, (∀ node, c.graph.resolve identity = .ok node ↔
        node ∈ c.graph.nodes.toList ∧ node.identity = identity) ∧
      ∀ e, c.graph.resolve identity = .error e →
        e = .typeNotFound identity.name (identity.version.getD 0) := by
  have hc := Compilation.sound_of_compile h
  have hr := hc.schema
  have hg := hc.graph
  refine ⟨fun name hname hevolving => ?_, fun name hname hleaf => ?_,
    fun id id' node node' hget hget' hne => ?_, fun node hnode => ?_,
    fun identity => ⟨fun node => hg.resolve_eq_ok_iff hr, fun e => hg.resolve_eq_error⟩⟩
  · have hevolves := (Compilation.evolves_iff hc hname).mpr hevolving
    have hmem := (hg.isName_iff hr).mp hname
    refine ⟨_, hg.labels_eq hr hmem hevolves, Built.pairwise_labels, List.getLast?_concat,
      fun label => hg.mem_labels_iff_changes hr, fun version hv => ?_⟩
    rw [hg.versionCount_eq] at hv
    obtain ⟨node, label, hnode, hlabel, hidentity⟩ := hg.exists_nodeAt_labelAt hv hmem hevolves
    obtain ⟨hfound, hleast⟩ := hg.le_label hlabel
    exact ⟨node, label, hnode, congrArg Identity.version hidentity, hfound, hlabel.le, hleast⟩
  · have hmem := (hg.isName_iff hr).mp hname
    have hevolves : c.schema.blueprint.evolves name = false :=
      Bool.eq_false_iff.mpr (mt (Compilation.evolves_iff hc hname).mp hleaf)
    rw [hg.versionCount_eq]
    exact ⟨hg.labels_of_leaf hr hmem hevolves, hg.nodeAt_leaf hr hmem hevolves⟩
  · have hdistinct : node.identity ≠ node'.identity :=
      mt (hg.identity_inj hr hget hget') hne
    have hat : ∀ {id : NodeId} {node : Node}, c.graph.nodes[id]? = some node →
        '@' ∉ node.name.toList :=
      fun hget => hg.not_mem_at hr (Array.mem_toList_iff.mpr (Array.mem_of_getElem? hget))
    exact ⟨hdistinct, mt (Identity.text_inj (hat hget) (hat hget')) hdistinct⟩
  · exact (hg.resolve_eq_ok_iff hr).mpr ⟨hnode, rfl⟩

/-- In the sample `B` evolves, its last label is that of the second version, and all nodes are
found under their identities. -/
theorem Compilation.identities_coherent_sample : ∃ c labels,
    Config.sample.compile 1 = .ok c ∧ c.graph.IsName "B" ∧ c.IsEvolving "B" ∧
      c.graph.labels "B" = .ok labels ∧ labels.getLast? = some 1 ∧
        ∀ node ∈ c.graph.nodes.toList, c.graph.resolve node.identity = .ok node := by
  obtain ⟨c, layout, h, hcount, hname, hlayout, -⟩ := Config.exists_compile_sample
  obtain ⟨hlabels, -, -, hself, -⟩ := Compilation.identities_coherent h
  have hc := Compilation.sound_of_compile h
  have hfirst : 0 < c.schema.chain.size := hc.schema.chain.nonempty
  have hbase : c.schema.definition.catalog.category? "B" = some .base :=
    (hc.schema.layout?_isSome_iff hfirst).mp (Option.isSome_of_eq_some hlayout)
  have hevolving : c.IsEvolving "B" := .inl (.inl (hc.schema.definition.base.mp hbase))
  obtain ⟨labels, hlist, -, hlast, -⟩ := hlabels "B" hname hevolving
  have hcurrent : c.graph.current = 1 := by rw [Graph.current, hcount]
  exact ⟨c, labels, h, hname, hevolving, hlist, hcurrent ▸ hlast, hself⟩

end SchemaEvolution

import SchemaEvolution.Proofs.TypeGraph

/-!
# The changed sets are exact

Behind each version the graph keeps the set of the names whose node changes. These are the names
that reach a type which the next version transforms, no more and no fewer. It does not matter at
which of the two versions references are followed, since they differ for transformed types only.

## Main definitions

* `Compilation.Transforms`: a transformation of a version targets a base type
* `Compilation.IsLeaf`: a custom type, a native type or a wrapper of one

## Main results

* `Replayed.Sound.affected_iff_before`: references may be followed at either version
* `Compilation.changedAt_exact`: the changed sets of a compiled schema
-/

namespace SchemaEvolution

/-! ## Affected names -/

/-- What the seed itself refers to does not matter for who reaches it. -/
theorem exists_reaches_of_agree {refs refs' : String → List String} {seed : String → Prop}
    (hagree : ∀ name, ¬seed name → refs name = refs' name) {name target : String}
    (htarget : seed target)
    (hreach : Relation.ReflTransGen (fun name other => other ∈ refs name) name target) :
    ∃ target, seed target ∧
      Relation.ReflTransGen (fun name other => other ∈ refs' name) name target := by
  -- the path is followed up to the first name of the seed, and before it both agree
  induction hreach using Relation.ReflTransGen.head_induction_on with
  | refl => exact ⟨target, htarget, .refl⟩
  | @head first second hrefers _ ih =>
    by_cases hfirst : seed first
    · exact ⟨first, hfirst, .refl⟩
    · obtain ⟨target', htarget', hreach'⟩ := ih
      rw [hagree first hfirst] at hrefers
      exact ⟨target', htarget', .head hrefers hreach'⟩

namespace Replayed.Sound

variable {replayed : Replayed} (hr : replayed.Sound) {v : Nat} {name : String}

include hr

/-- **References may be followed at either version**: they differ for transformed types only. -/
theorem affected_iff_before (hv : v + 1 < replayed.chain.size) :
    replayed.Affected v name ↔ ∃ target, replayed.Targets (v + 1) target ∧
      Relation.ReflTransGen
        (fun name other => other ∈ replayed.blueprint.referencesAt v name) name target := by
  obtain ⟨after, hafter⟩ := hr.exists_stage hv
  have hagree : ∀ other, ¬replayed.Targets (v + 1) other →
      replayed.blueprint.referencesAt (v + 1) other = replayed.blueprint.referencesAt v other := by
    intro other hother
    refine hr.referencesAt_succ hafter fun hchanged => hother ?_
    exact ⟨after, hafter, (hr.mem_changed_iff hafter).mp hchanged⟩
  constructor
  · rintro ⟨target, htarget, hreach⟩
    exact exists_reaches_of_agree (fun other hother => hagree other hother) htarget hreach
  · rintro ⟨target, htarget, hreach⟩
    exact exists_reaches_of_agree (fun other hother => (hagree other hother).symm) htarget hreach

end Replayed.Sound

/-! ## The changed sets of a compiled schema -/

namespace Compilation

variable {c : Compilation} {version : Nat} {name type : String}

/-- A transformation of the version targets the base type. -/
def Transforms (c : Compilation) (version : Nat) (type : String) : Prop :=
  type ∈ c.definition.baseTypes ∧ ∃ declared, c.chain.get? version = some declared ∧
    ∃ step ∈ declared.transformations, step.type = type

/-- The name is that of a custom type or a native type. -/
def IsLeafType (c : Compilation) (name : String) : Prop :=
  c.definition.catalog.category? name = some .custom ∨
    ∃ type, c.definition.catalog.category? name = some (.native type)

/-- The name is that of a custom type, a native type or a wrapper of one. -/
def IsLeaf (c : Compilation) (name : String) : Prop :=
  c.IsLeafType name ∨
    ∃ ref : TypeRef, ref.isWrapped = true ∧ ref.canonical = name ∧ c.IsLeafType ref.name

theorem transforms_iff (hc : c.Sound) :
    c.Transforms version type ↔ c.schema.Targets version type := by
  constructor
  · rintro ⟨-, declared, hdeclared, hstep⟩
    obtain ⟨stage, hstage⟩ := hc.schema.exists_stage (List.getElem?_eq_some_iff.mp hdeclared).1
    refine ⟨stage, hstage, ?_⟩
    rwa [hc.schema.transformations_stage hstage hdeclared]
  · rintro ⟨stage, hstage, step, hstep, rfl⟩
    have hdeclared : c.chain.get? version = some _ :=
      List.getElem?_eq_getElem (hc.schema.lt_size_of_stage hstage)
    refine ⟨hc.schema.definition.base.mp (hc.schema.checked_transformation hstage hstep).1, _,
      hdeclared, step, ?_, rfl⟩
    rwa [← hc.schema.transformations_stage hstage hdeclared]

theorem not_evolves_of_isLeaf (hc : c.Sound) (h : c.IsLeaf name) :
    c.schema.blueprint.evolves name = false := by
  have hleaf : ∀ {name}, c.IsLeafType name → ∃ category,
      c.schema.definition.catalog.category? name = some category ∧ category.evolves = false := by
    rintro name (hcustom | ⟨type, hnative⟩)
    · exact ⟨_, hcustom, rfl⟩
    · exact ⟨_, hnative, rfl⟩
  rcases h with htype | ⟨ref, hwrapped, rfl, htype⟩
  · obtain ⟨category, hcategory, hstays⟩ := hleaf htype
    rw [Replayed.evolves_of_category hcategory, hstays]
  · obtain ⟨category, hcategory, hstays⟩ := hleaf htype
    by_cases hname : ref.canonical ∈ c.schema.blueprint.names
    · have hentry := hc.schema.entry_of_canonical_mem_names hwrapped hname
      obtain ⟨href, -, -⟩ := hc.schema.entry_wrapper_iff.mp hentry
      rw [hc.schema.evolves_wrapper href hwrapped, Catalog.evolves, hcategory]
      exact hstays
    · rw [Blueprint.mem_names_iff, Option.not_isSome_iff_eq_none] at hname
      rw [Blueprint.evolves, hname]

theorem exists_changedAt (hc : c.Sound) (hv : version < c.chain.size) :
    ∃ changed, c.graph.changedAt? version = some changed ∧
      ∀ name, name ∈ changed ↔ c.schema.Affected version name := by
  have hlength : version < c.graph.changed.length := Nat.lt_of_lt_of_eq hv hc.graph.count.symm
  have hget : c.graph.changedAt? version = some c.graph.changed[version] :=
    List.getElem?_eq_getElem hlength
  refine ⟨_, hget, fun name => ?_⟩
  have hchanged := hc.graph.changed hget name
  rwa [Nat.zero_add] at hchanged

/-- A changed set holds exactly the names that reach a transformed type. -/
theorem affected_iff_reaches (hc : c.Sound) (hv : version + 1 < c.chain.size) :
    (c.schema.Affected version name ↔ ∃ type, c.Transforms (version + 1) type ∧
      c.graph.index.Reaches (version + 1) name type) ∧
    (c.schema.Affected version name ↔ ∃ type, c.Transforms (version + 1) type ∧
      c.graph.index.Reaches version name type) := by
  have hreaches : ∀ {v}, v < c.chain.size → ∀ {type}, c.graph.index.Reaches v name type ↔ _ :=
    fun hv => hc.graph.reaches_iff hv
  constructor
  · simp only [transforms_iff hc, hreaches hv]
    rfl
  · rw [hc.schema.affected_iff_before hv]
    simp only [transforms_iff hc, hreaches (Nat.lt_of_succ_lt hv)]

/-- The nodes of a name at two versions in a row differ exactly when the name is affected. -/
theorem id_ne_iff_affected (hc : c.Sound) (hv : version + 1 < c.chain.size)
    (hname : c.graph.IsName name) :
    ∃ node next, c.graph.nodeAt name version = .ok node ∧
      c.graph.nodeAt name (version + 1) = .ok next ∧
        (node.id ≠ next.id ↔ c.schema.Affected version name) := by
  have hname := (hc.graph.isName_iff hc.schema).mp hname
  obtain ⟨node, hnode, hid, -⟩ := hc.graph.exists_nodeAt (Nat.lt_of_succ_lt hv) hname
  obtain ⟨next, hnext, hid', -⟩ := hc.graph.exists_nodeAt hv hname
  have hshared : c.graph.index.node? name version = c.graph.index.node? name (version + 1) ↔ _ :=
    hc.graph.shared (Nat.zero_le _) hv hname
  rw [hid, hid', Option.some_inj] at hshared
  exact ⟨node, next, hnode, hnext, by rw [ne_eq, hshared, not_not]⟩

/-- **The changed sets are exact.** Behind every version but the current one, the set holds the
names that reach a transformed base type, at either of the two versions, and these are the names
whose nodes differ. The set of the current version is empty, and no set holds a leaf or a wrapper
of one. The search that finds a set ends on every index. -/
theorem changedAt_exact {config : Config} {workers : Nat} (h : config.compile workers = .ok c) :
    (∀ version < c.graph.current, ∃ changed, c.graph.changedAt? version = some changed ∧
      (∀ name, name ∈ changed ↔ ∃ type, c.Transforms (version + 1) type ∧
        c.graph.index.Reaches (version + 1) name type) ∧
      (∀ name, name ∈ changed ↔ ∃ type, c.Transforms (version + 1) type ∧
        c.graph.index.Reaches version name type) ∧
      ∀ name, c.graph.IsName name → ∃ node next, c.graph.nodeAt name version = .ok node ∧
        c.graph.nodeAt name (version + 1) = .ok next ∧ (node.id ≠ next.id ↔ name ∈ changed)) ∧
    c.graph.changedAt? c.graph.current = some ∅ ∧
    (∀ version changed, c.graph.changedAt? version = some changed → ∀ name, c.IsLeaf name →
      name ∉ changed) ∧
    ∀ (index : Index) version seed, WellFounded (flip (index.SearchStep version)) ∧
      Relation.ReflTransGen (index.SearchStep version) (.ofNames seed, seed)
        (index.closure version seed, []) := by
  have hc := sound_of_compile h
  have hcurrent := hc.graph.current_eq
  have hsize : 0 < c.chain.size := hc.schema.chain.nonempty
  refine ⟨fun version hversion => ?_, ?_, fun version changed hchanged name hname => ?_,
    fun index version seed => ⟨index.wellFounded_searchStep version,
      index.searchSteps_closeOver version _ seed⟩⟩
  · have hv : version + 1 < c.chain.size := by
      rw [hcurrent] at hversion
      exact Nat.add_lt_of_lt_sub hversion
    obtain ⟨changed, hget, hmem⟩ := exists_changedAt hc (Nat.lt_of_succ_lt hv)
    refine ⟨changed, hget, fun name => ?_, fun name => ?_, fun name hname => ?_⟩
    · rw [hmem, (affected_iff_reaches hc hv).1]
    · rw [hmem, (affected_iff_reaches hc hv).2]
    · obtain ⟨node, next, hnode, hnext, hdiffer⟩ := id_ne_iff_affected hc hv hname
      exact ⟨node, next, hnode, hnext, hdiffer.trans (hmem name).symm⟩
  · have hlast : c.graph.current + 1 = c.chain.size := by
      rw [hcurrent]
      exact Nat.sub_add_cancel hsize
    obtain ⟨changed, hget, hmem⟩ := exists_changedAt hc (Nat.lt_of_succ_le (Nat.le_of_eq hlast))
    have hnone : ∀ name, name ∉ changed := fun name hname =>
      Replayed.not_affected_of_size_le hc.schema (Nat.le_of_eq hlast.symm) ((hmem name).mp hname)
    rw [hget, SortedMap.eq_empty hnone]
  · intro hmem
    have haffected := (hc.graph.changed hchanged name).mp hmem
    exact hc.schema.not_affected_of_not_evolves (not_evolves_of_isLeaf hc hname) haffected

theorem changedAt_exact_sample : ∃ c changed, Config.sample.compile 1 = .ok c ∧
    0 < c.graph.current ∧ c.graph.changedAt? 0 = some changed ∧
      ∀ name, name ∈ changed ↔ ∃ type, c.Transforms 1 type ∧ c.graph.index.Reaches 1 name type := by
  obtain ⟨c, -, hc, hcount, -⟩ := Config.exists_compile_sample
  have hcurrent : 0 < c.graph.current := by
    rw [(sound_of_compile hc).graph.current_eq]
    have hsize := (sound_of_compile hc).graph.versionCount_eq
    omega
  obtain ⟨changed, hget, hmem, -⟩ := (changedAt_exact hc).1 0 hcurrent
  exact ⟨c, changed, hc, hcurrent, hget, hmem⟩

end Compilation

end SchemaEvolution

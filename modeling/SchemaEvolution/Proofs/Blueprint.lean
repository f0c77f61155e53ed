import SchemaEvolution.Proofs.FirstUses
import SchemaEvolution.Proofs.History

/-!
# The names of the type graph

The graph of a sound schema has a name for every declared and native type and for every wrapped
reference anywhere in the schema, and no others. Whatever a name refers to is a name again, and
what does not evolve refers to nothing that does.

## Main definitions

* `Replayed.blueprint`: what the graph of a schema is built from
* `Blueprint.referencesAt`: the names that a name refers to at a version

## Main results

* `Replayed.mem_typeRefs_iff`: where type references occur
* `Replayed.entry_declared_iff`, `Replayed.Sound.entry_wrapper_iff`: the names of the graph
* `Replayed.Sound.canonical_mem_names`: every type reference of the schema has a name
* `Replayed.Sound.mem_names_of_mem_referencesAt`: references lead from names to names
* `Replayed.Sound.referencesAt_succ`: references change for targeted types only
* `Replayed.Sound.not_evolves_of_mem_referencesAt`: leaves and their wrappers refer to leaves
-/

namespace SchemaEvolution

/-- What the graph of a schema is built from. -/
def Replayed.blueprint (replayed : Replayed) : Blueprint :=
  .ofDefinition replayed.definition replayed.chain replayed.history

/-- All type references of a schema. -/
def Replayed.typeRefs (replayed : Replayed) : List TypeRef :=
  Blueprint.typeRefs replayed.definition replayed.chain replayed.history

namespace Blueprint

/-- The names that a name refers to at a version; none where it is no name of the graph. -/
def referencesAt (blueprint : Blueprint) (version : Nat) (name : String) : List String :=
  ((blueprint.row version).get? name).getD []

variable {blueprint : Blueprint} {version : Nat} {name : String}

theorem mem_names_iff : name ∈ blueprint.names ↔ (blueprint.entries.get? name).isSome :=
  SortedMap.get?_isSome_iff.symm

theorem referencesAt_of_entry {entry : Entry} (h : blueprint.entries.get? name = some entry) :
    blueprint.referencesAt version name = blueprint.references version name entry := by
  rw [referencesAt, row, SortedMap.get?_map, h]
  rfl

theorem mem_dedup {names : List String} : name ∈ dedup names ↔ name ∈ names :=
  (ListsFirstUses.foldl names).mem_iff

/-! ## Entries -/

/-- Entering wrapped references: each gets its own name, unless the name is taken already. -/
theorem get?_foldl_insertNew {refs : List TypeRef} (hwrapped : ∀ ref ∈ refs, ref.isWrapped = true)
    (entries : SortedMap Entry) (entry : Entry) :
    (refs.foldl (fun entries ref => entries.insertNew ref.canonical (.wrapper ref)) entries).get?
      name = some entry ↔ entries.get? name = some entry ∨
        (name ∉ entries ∧ ∃ ref ∈ refs, ref.canonical = name ∧ entry = .wrapper ref) := by
  induction refs generalizing entries with
  | nil => simp
  | cons first rest ih =>
    obtain ⟨hfirst, hrest⟩ := List.forall_mem_cons.mp hwrapped
    have hmem : ∀ m : SortedMap Entry, name ∈ m ↔ (m.get? name).isSome :=
      fun _ => SortedMap.get?_isSome_iff.symm
    rw [List.foldl_cons, ih hrest, hmem, SortedMap.get?_insertNew, hmem entries]
    by_cases hnew : name = first.canonical ∧ first.canonical ∉ entries
    · obtain ⟨rfl, hfree⟩ := hnew
      have hnone : entries.get? first.canonical = none := by
        rw [← Option.not_isSome_iff_eq_none, SortedMap.get?_isSome_iff]
        exact hfree
      rw [if_pos ⟨rfl, hfree⟩, hnone]
      constructor
      · rintro (h | ⟨h, -⟩)
        · exact .inr ⟨nofun, first, List.mem_cons_self, rfl, (Option.some.inj h).symm⟩
        · exact absurd rfl h
      · rintro (h | ⟨-, ref, href, hname, rfl⟩)
        · cases h
        · obtain rfl := TypeRef.canonical_inj_of_wrapped (hwrapped ref href) hfirst hname
          exact .inl rfl
    · rw [if_neg hnew]
      refine or_congr_right (and_congr_right fun hfree => ?_)
      have hother : first.canonical ≠ name := by
        rintro rfl
        exact hnew ⟨rfl, fun h => hfree ((hmem _).mp h)⟩
      simp [hother]

end Blueprint

/-! ## Declared names -/

namespace Replayed

open Blueprint

variable {replayed : Replayed}

/-- **The type references of a schema** are those of its layouts, of its transformations and of its
interfaces. -/
theorem mem_typeRefs_iff {ref : TypeRef} :
    ref ∈ replayed.typeRefs ↔
      (∃ v name layout, replayed.history.layout? v name = some layout ∧ ref ∈ layout.values) ∨
      (∃ v version, replayed.chain.get? v = some version ∧ ∃ step ∈ version.transformations,
        step.change.introduced? = some ref) ∨
      ∃ interface ∈ replayed.definition.interfaces.values, ref ∈ interface.fields.values := by
  simp only [typeRefs, Blueprint.typeRefs, List.mem_append, List.mem_flatMap, List.mem_filterMap,
    or_assoc]
  refine or_congr ?_ (or_congr_left ?_)
  · constructor
    · rintro ⟨stage, hstage, layout, hlayout, href⟩
      obtain ⟨v, hv⟩ := List.mem_iff_getElem?.mp hstage
      obtain ⟨⟨name, layout⟩, hentry, rfl⟩ := List.mem_map.mp hlayout
      have hget := OrderedMap.get?_eq_some_iff.mpr hentry
      exact ⟨v, name, layout, History.layout?_eq_some_iff.mpr ⟨stage, hv, hget⟩, href⟩
    · rintro ⟨v, name, layout, hlayout, href⟩
      obtain ⟨stage, hstage, hget⟩ := History.layout?_eq_some_iff.mp hlayout
      exact ⟨stage, List.mem_of_getElem? hstage, layout, OrderedMap.mem_values_of_get? hget, href⟩
  · constructor
    · rintro ⟨version, hversion, hstep⟩
      obtain ⟨v, hv⟩ := List.mem_iff_getElem?.mp hversion
      exact ⟨v, version, hv, hstep⟩
    · rintro ⟨v, version, hversion, hstep⟩
      exact ⟨version, List.mem_of_getElem? hversion, hstep⟩

theorem mem_typeRefs_of_layout {v : Nat} {name : String} {layout : Layout}
    (h : replayed.history.layout? v name = some layout) {ref : TypeRef}
    (href : ref ∈ layout.values) : ref ∈ replayed.typeRefs :=
  mem_typeRefs_iff.mpr (.inl ⟨v, name, layout, h, href⟩)

/-- **The declared names of the graph** are those of the catalog. -/
theorem entry_declared_iff {name : String} {category : TypeCategory} :
    replayed.blueprint.entries.get? name = some (.declared category) ↔
      replayed.definition.catalog.category? name = some category := by
  refine (get?_foldl_insertNew (fun ref href => (List.mem_filter.mp href).2) _ _).trans ?_
  rw [SortedMap.get?_map]
  constructor
  · rintro (h | ⟨-, ref, -, -, h⟩)
    · obtain ⟨category', hget, h⟩ := Option.map_eq_some_iff.mp h
      cases h
      exact hget
    · cases h
  · intro h
    exact .inl (Option.map_eq_some_iff.mpr ⟨category, h, rfl⟩)

theorem mem_names_of_category {name : String} {category : TypeCategory}
    (h : replayed.definition.catalog.category? name = some category) :
    name ∈ replayed.blueprint.names := by
  rw [mem_names_iff, entry_declared_iff.mpr h]
  rfl

theorem mem_names_of_knows {ref : TypeRef} (h : replayed.definition.catalog.Knows ref) :
    ref.name ∈ replayed.blueprint.names := by
  obtain ⟨category, hcategory⟩ := Option.isSome_iff_exists.mp h
  exact mem_names_of_category hcategory

theorem evolves_of_category {name : String} {category : TypeCategory}
    (h : replayed.definition.catalog.category? name = some category) :
    replayed.blueprint.evolves name = category.evolves := by
  rw [evolves, entry_declared_iff.mpr h]

theorem mem_referencesAt_base {v : Nat} {name other : String} {layout : Layout}
    (hbase : replayed.definition.catalog.category? name = some .base)
    (hlayout : replayed.history.layout? v name = some layout) :
    other ∈ replayed.blueprint.referencesAt v name ↔
      ∃ ref ∈ layout.values, ref.canonical = other := by
  rw [referencesAt_of_entry (entry_declared_iff.mpr hbase)]
  have hrefers : replayed.blueprint.references v name (.declared .base) =
      dedup (layout.values.map TypeRef.canonical) := by
    simp only [references, blueprint, ofDefinition, hlayout]
  rw [hrefers, mem_dedup, List.mem_map]

theorem referencesAt_super {v : Nat} {name : String}
    (hsuper : replayed.definition.catalog.category? name = some .super) :
    replayed.blueprint.referencesAt v name =
      (replayed.definition.superTypes.get? name).getD [] :=
  referencesAt_of_entry (entry_declared_iff.mpr hsuper)

theorem referencesAt_leaf {v : Nat} {name : String} {category : TypeCategory}
    (h : replayed.definition.catalog.category? name = some category)
    (hleaf : category.evolves = false) : replayed.blueprint.referencesAt v name = [] := by
  rw [referencesAt_of_entry (entry_declared_iff.mpr h)]
  cases category with
  | base => cases hleaf
  | super => cases hleaf
  | custom => rfl
  | native type => rfl

end Replayed

/-! ## The names of a sound schema -/

namespace Replayed.Sound

open Blueprint

variable {replayed : Replayed} (hr : replayed.Sound)

include hr

/-- Every type reference of the schema is one to a declared or native type. -/
theorem knows_typeRefs {ref : TypeRef} (h : ref ∈ replayed.typeRefs) :
    replayed.definition.catalog.Knows ref := by
  rcases mem_typeRefs_iff.mp h with ⟨v, name, layout, hlayout, href⟩ |
    ⟨v, version, hversion, step, hstep, hintro⟩ | ⟨interface, hinterface, href⟩
  · exact hr.knows_layout hlayout ref href
  · obtain ⟨stage, hstage⟩ := hr.exists_stage (List.getElem?_eq_some_iff.mp hversion).1
    rw [← hr.transformations_stage hstage hversion] at hstep
    exact (hr.checked_transformation hstage hstep).2 ref hintro
  · obtain ⟨⟨name, interface⟩, hentry, rfl⟩ := List.mem_map.mp hinterface
    exact hr.definition.interfaceField (OrderedMap.get?_eq_some_iff.mpr hentry) ref href

theorem mem_typeRefs_of_introduced {v : Nat} {stage : Stage}
    (h : replayed.history.stages[v]? = some stage) {step : Step}
    (hstep : step ∈ stage.transformations) {ref : TypeRef}
    (href : step.change.introduced? = some ref) : ref ∈ replayed.typeRefs := by
  have hversion : replayed.chain.get? v = some _ := List.getElem?_eq_getElem (hr.lt_size_of_stage h)
  rw [hr.transformations_stage h hversion] at hstep
  exact mem_typeRefs_iff.mpr (.inr (.inl ⟨v, _, hversion, step, hstep, href⟩))

/-- **The other names of the graph** are those of wrapped references. -/
theorem entry_wrapper_iff {name : String} {ref : TypeRef} :
    replayed.blueprint.entries.get? name = some (.wrapper ref) ↔
      ref ∈ replayed.typeRefs ∧ ref.isWrapped = true ∧ ref.canonical = name := by
  refine (get?_foldl_insertNew (fun ref href => (List.mem_filter.mp href).2) _ _).trans ?_
  rw [SortedMap.get?_map]
  constructor
  · rintro (h | ⟨-, ref', href, hname, h⟩)
    · obtain ⟨category', -, h⟩ := Option.map_eq_some_iff.mp h
      cases h
    · obtain rfl := Entry.wrapper.inj h
      obtain ⟨hmem, hwrapped⟩ := List.mem_filter.mp href
      exact ⟨hmem, hwrapped, hname⟩
  · rintro ⟨hmem, hwrapped, rfl⟩
    refine .inr ⟨fun hdeclared => ?_, ref, List.mem_filter.mpr ⟨hmem, hwrapped⟩, rfl, rfl⟩
    obtain ⟨_, hget⟩ := SortedMap.exists_get?_of_mem hdeclared
    rw [SortedMap.get?_map] at hget
    obtain ⟨category, hget, -⟩ := Option.map_eq_some_iff.mp hget
    exact TypeRef.not_isName_canonical hwrapped (hr.definition.isName hget)

/-- A wrapped reference whose spelling is a name of the graph is what that name stands for. -/
theorem entry_of_canonical_mem_names {ref : TypeRef} (hwrapped : ref.isWrapped = true)
    (hname : ref.canonical ∈ replayed.blueprint.names) :
    replayed.blueprint.entries.get? ref.canonical = some (.wrapper ref) := by
  obtain ⟨entry, hentry⟩ := Option.isSome_iff_exists.mp (mem_names_iff.mp hname)
  cases entry with
  | declared category =>
    have hcategory := entry_declared_iff.mp hentry
    exact absurd (hr.definition.isName hcategory) (TypeRef.not_isName_canonical hwrapped)
  | wrapper ref' =>
    obtain ⟨-, hwrapped', hsame⟩ := hr.entry_wrapper_iff.mp hentry
    rw [hentry, TypeRef.canonical_inj_of_wrapped hwrapped' hwrapped hsame]

/-- **Every type reference of the schema has a name.** -/
theorem canonical_mem_names {ref : TypeRef} (h : ref ∈ replayed.typeRefs) :
    ref.canonical ∈ replayed.blueprint.names := by
  cases hwrapped : ref.isWrapped with
  | true =>
    rw [mem_names_iff, hr.entry_wrapper_iff.mpr ⟨h, hwrapped, rfl⟩]
    rfl
  | false =>
    rw [TypeRef.canonical_of_not_wrapped hwrapped]
    exact mem_names_of_knows (hr.knows_typeRefs h)

/-! ## References -/

theorem referencesAt_wrapper {v : Nat} {ref : TypeRef} (h : ref ∈ replayed.typeRefs)
    (hwrapped : ref.isWrapped = true) :
    replayed.blueprint.referencesAt v ref.canonical = [ref.name] :=
  referencesAt_of_entry (hr.entry_wrapper_iff.mpr ⟨h, hwrapped, rfl⟩)

theorem category?_of_member {name member : String}
    (h : member ∈ (replayed.definition.superTypes.get? name).getD []) :
    replayed.definition.catalog.category? member = some .base := by
  cases hget : replayed.definition.superTypes.get? name with
  | none => simp [hget] at h
  | some members => exact (hr.definition.member hget).2 member (by simpa [hget] using h)

/-- **References lead from names to names.** -/
theorem mem_names_of_mem_referencesAt {v : Nat} {name other : String}
    (h : other ∈ replayed.blueprint.referencesAt v name) : other ∈ replayed.blueprint.names := by
  cases hentry : replayed.blueprint.entries.get? name with
  | none => simp [referencesAt, row, hentry] at h
  | some entry =>
    cases entry with
    | wrapper ref =>
      obtain ⟨href, hwrapped, rfl⟩ := hr.entry_wrapper_iff.mp hentry
      rw [hr.referencesAt_wrapper href hwrapped, List.mem_singleton] at h
      exact h ▸ mem_names_of_knows (hr.knows_typeRefs href)
    | declared category =>
      have hcategory := entry_declared_iff.mp hentry
      cases category with
      | base =>
        cases hlayout : replayed.history.layout? v name with
        | none =>
          rw [referencesAt_of_entry hentry] at h
          simp [references, blueprint, ofDefinition, hlayout] at h
        | some layout =>
          obtain ⟨ref, href, rfl⟩ := (mem_referencesAt_base hcategory hlayout).mp h
          exact hr.canonical_mem_names (mem_typeRefs_of_layout hlayout href)
      | super =>
        rw [referencesAt_super hcategory] at h
        exact mem_names_of_category (hr.category?_of_member h)
      | custom => rw [referencesAt_leaf hcategory rfl] at h; cases h
      | native type => rw [referencesAt_leaf hcategory rfl] at h; cases h

/-- **References change for targeted types only.** -/
theorem referencesAt_succ {v : Nat} {after : Stage}
    (h : replayed.history.stages[v + 1]? = some after) {name : String}
    (hname : name ∉ after.changed) :
    replayed.blueprint.referencesAt (v + 1) name = replayed.blueprint.referencesAt v name := by
  have hlayout := hr.layout?_succ_of_not_mem_changed h hname
  cases hentry : replayed.blueprint.entries.get? name with
  | none => simp [referencesAt, row, hentry]
  | some entry =>
    rw [referencesAt_of_entry hentry, referencesAt_of_entry hentry]
    cases entry with
    | wrapper ref => rfl
    | declared category =>
      cases category with
      | base => simp only [references, blueprint, ofDefinition, hlayout]
      | super => rfl
      | custom => rfl
      | native type => rfl

/-! ## Names without versions -/

theorem evolves_wrapper {ref : TypeRef} (h : ref ∈ replayed.typeRefs)
    (hwrapped : ref.isWrapped = true) :
    replayed.blueprint.evolves ref.canonical = replayed.definition.catalog.evolves ref := by
  rw [evolves, hr.entry_wrapper_iff.mpr ⟨h, hwrapped, rfl⟩]
  rfl

/-- **What does not evolve refers to nothing that does.** -/
theorem not_evolves_of_mem_referencesAt {v : Nat} {name other : String}
    (hname : replayed.blueprint.evolves name = false)
    (h : other ∈ replayed.blueprint.referencesAt v name) :
    replayed.blueprint.evolves other = false := by
  cases hentry : replayed.blueprint.entries.get? name with
  | none => simp [referencesAt, row, hentry] at h
  | some entry =>
    cases entry with
    | wrapper ref =>
      obtain ⟨href, hwrapped, rfl⟩ := hr.entry_wrapper_iff.mp hentry
      rw [hr.referencesAt_wrapper href hwrapped, List.mem_singleton] at h
      subst h
      obtain ⟨category, hcategory⟩ := Option.isSome_iff_exists.mp (hr.knows_typeRefs href)
      rw [hr.evolves_wrapper href hwrapped, Catalog.evolves, hcategory] at hname
      rw [evolves_of_category hcategory]
      exact hname
    | declared category =>
      have hcategory := entry_declared_iff.mp hentry
      rw [evolves_of_category hcategory] at hname
      rw [referencesAt_leaf hcategory hname] at h
      cases h

end Replayed.Sound

end SchemaEvolution

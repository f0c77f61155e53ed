import SchemaEvolution.Proofs.Definition
import SchemaEvolution.Proofs.Hierarchy

/-!
# Schemas with their entries reordered

The sections of a schema are read entry by entry, and the first fault in the order of the entries
is the answer. But whether there is a fault does not depend on the order, and neither does what is
read: a schema with its entries reordered is resolved to the same definition, reordered.

## Main definitions

* `OrderedMap.Reordered`: the same entries in whatever order
* `Config.Reordered`, `Definition.Reordered`: every section is reordered

## Main results

* `OrderedMap.Reordered.exists_traverse`: reading reordered entries
* `Catalog.declareAll_perm`: a section is declared in whatever order
* `Definition.exists_ofConfig_reordered`: reordered schemas have reordered definitions
-/

namespace SchemaEvolution

universe u v w

/-! ## Maps -/

namespace OrderedMap

variable {α : Type u} {β : Type v} {ε : Type w} {m m' : OrderedMap α}

/-- **The same entries**, in whatever order. -/
def Reordered (m m' : OrderedMap α) : Prop := m.entries.Perm m'.entries

namespace Reordered

theorem refl (m : OrderedMap α) : m.Reordered m := List.Perm.refl _

variable (h : m.Reordered m')

include h

theorem symm : m'.Reordered m := List.Perm.symm h

theorem keys_perm : m.keys.Perm m'.keys := List.Perm.map Prod.fst h

theorem mem_iff {key : String} : key ∈ m ↔ key ∈ m' := h.keys_perm.mem_iff

theorem mem_values_iff {value : α} : value ∈ m.values ↔ value ∈ m'.values :=
  (List.Perm.map Prod.snd h).mem_iff

/-- A look-up does not see the order. -/
theorem get?_eq (key : String) : m.get? key = m'.get? key := by
  ext value
  rw [get?_eq_some_iff, get?_eq_some_iff, List.Perm.mem_iff h]

theorem map (f : α → β) : (m.map f).Reordered (m'.map f) :=
  List.Perm.map (fun entry : String × α => (entry.1, f entry.2)) h

theorem replace (key : String) (value : α) :
    (m.replace key value).Reordered (m'.replace key value) :=
  List.Perm.map (replaceEntry key value) h

/-- **Reading reordered entries** yields what was read, reordered. -/
theorem exists_traverse {f : String → α → Except ε β} {out : OrderedMap β}
    (hout : m.traverse f = .ok out) : ∃ out', m'.traverse f = .ok out' ∧ out.Reordered out' := by
  obtain ⟨entries, hentries, hperm⟩ :=
    List.perm_comp_forall₂ (List.Perm.symm h) (traverse_eq_ok_iff.mp hout)
  have hnames : m'.entries.map Prod.fst = entries.map Prod.fst :=
    map_eq_map_of_forall₂ hentries fun _ _ hentry => hentry.1
  exact ⟨⟨entries, hnames ▸ m'.distinct⟩, traverse_eq_ok_iff.mpr hentries, hperm.symm⟩

end Reordered

end OrderedMap

/-! ## The catalog -/

namespace Catalog

variable {category : TypeCategory} {names names' : List String} {catalog out : Catalog}

theorem insert_comm {first second : String} :
    (catalog.insert first category).insert second category =
      (catalog.insert second category).insert first category := by
  refine SortedMap.eq_of_get? fun name => ?_
  simp only [SortedMap.get?_insert]
  split <;> split <;> rfl

theorem declareAll_cons_eq_ok_iff {name : String} :
    declareAll category (name :: names) catalog = .ok out ↔ checkName name = .ok () ∧
      catalog.category? name = none ∧ declareAll category names (catalog.insert name category) =
        .ok out := by
  rw [declareAll]
  constructor
  · intro h
    obtain ⟨⟨⟩, hcheck, h⟩ := bind_eq_ok.mp h
    obtain ⟨middle, hdeclare, h⟩ := bind_eq_ok.mp h
    obtain ⟨hfree, rfl⟩ := declare_eq_ok hdeclare
    exact ⟨hcheck, hfree, h⟩
  · rintro ⟨hcheck, hfree, h⟩
    rw [hcheck, ok_bind, declare, hfree]
    exact h

/-- **A section is declared in whatever order.** -/
theorem declareAll_perm (h : names.Perm names')
    (hout : declareAll category names catalog = .ok out) :
    declareAll category names' catalog = .ok out := by
  induction h generalizing catalog with
  | nil => exact hout
  | cons name _ ih =>
    obtain ⟨hcheck, hfree, hout⟩ := declareAll_cons_eq_ok_iff.mp hout
    exact declareAll_cons_eq_ok_iff.mpr ⟨hcheck, hfree, ih hout⟩
  | swap first second names =>
    obtain ⟨hsecond, hfree, hout⟩ := declareAll_cons_eq_ok_iff.mp hout
    obtain ⟨hfirst, hfree', hout⟩ := declareAll_cons_eq_ok_iff.mp hout
    rw [category?_insert] at hfree'
    split at hfree'
    · cases hfree'
    · rename_i hdiffer
      refine declareAll_cons_eq_ok_iff.mpr ⟨hfirst, hfree', ?_⟩
      refine declareAll_cons_eq_ok_iff.mpr ⟨hsecond, ?_, insert_comm ▸ hout⟩
      rw [category?_insert, if_neg (Ne.symm hdiffer), hfree]
  | trans _ _ ih ih' => exact ih' (ih hout)

theorem checkInterfaces_eq_ok_iff :
    catalog.checkInterfaces names = .ok () ↔ ∀ name ∈ names, catalog.category? name = none := by
  induction names with
  | nil => exact iff_of_true rfl nofun
  | cons name rest ih =>
    rw [checkInterfaces, List.forall_mem_cons]
    cases hname : catalog.category? name with
    | some category => simp
    | none => simpa using ih

end Catalog

/-! ## The definition -/

/-- **The same schema** with the entries of every section in whatever order. -/
structure Config.Reordered (config config' : Config) : Prop where
  currentVersion : config.currentVersion = config'.currentVersion
  interfaces : config.interfaces.Reordered config'.interfaces
  baseTypes : config.baseTypes.Reordered config'.baseTypes
  superTypes : config.superTypes.Reordered config'.superTypes
  customTypes : config.customTypes.Reordered config'.customTypes
  versions : config.versions.Reordered config'.versions

theorem Config.Reordered.symm {config config' : Config} (h : config.Reordered config') :
    config'.Reordered config :=
  ⟨h.currentVersion.symm, h.interfaces.symm, h.baseTypes.symm, h.superTypes.symm,
    h.customTypes.symm, h.versions.symm⟩

/-- **The same definition** with the entries of every section in whatever order. -/
structure Definition.Reordered (definition definition' : Definition) : Prop where
  currentVersion : definition.currentVersion = definition'.currentVersion
  catalog : definition.catalog = definition'.catalog
  interfaces : definition.interfaces.Reordered definition'.interfaces
  baseTypes : definition.baseTypes.Reordered definition'.baseTypes
  superTypes : definition.superTypes.Reordered definition'.superTypes
  customTypes : definition.customTypes.Reordered definition'.customTypes
  versions : definition.versions.Reordered definition'.versions

namespace Definition

variable {config config' : Config} {catalog : Catalog} {definition : Definition}

/-- What a schema is resolved to, section by section. -/
structure Resolves (config : Config) (definition : Definition) : Prop where
  currentVersion : definition.currentVersion = config.currentVersion
  catalog : Catalog.ofConfig config = .ok definition.catalog
  baseTypes : config.baseTypes.traverse (readBaseType config definition.catalog) =
    .ok definition.baseTypes
  superTypes : config.superTypes.traverse (readSuperType definition.catalog) =
    .ok definition.superTypes
  customTypes : (config.customTypes.traverse fun _ written => readCustomType written) =
    .ok definition.customTypes
  interfaces : readInterfaces config definition.catalog = .ok definition.interfaces
  versions : (config.versions.traverse fun _ written => readVersion written) =
    .ok definition.versions

theorem ofConfig_eq_ok_iff : ofConfig config = .ok definition ↔ Resolves config definition := by
  constructor
  · intro h
    obtain ⟨catalog, hcatalog, h⟩ := bind_eq_ok.mp h
    obtain ⟨baseTypes, hbase, h⟩ := bind_eq_ok.mp h
    obtain ⟨superTypes, hsuper, h⟩ := bind_eq_ok.mp h
    obtain ⟨customTypes, hcustom, h⟩ := bind_eq_ok.mp h
    obtain ⟨interfaces, hinterfaces, h⟩ := bind_eq_ok.mp h
    obtain ⟨versions, hversions, h⟩ := bind_eq_ok.mp h
    obtain rfl := Except.ok.inj h
    exact ⟨rfl, hcatalog, hbase, hsuper, hcustom, hinterfaces, hversions⟩
  · rintro ⟨hcurrent, hcatalog, hbase, hsuper, hcustom, hinterfaces, hversions⟩
    rw [ofConfig, hcatalog, ok_bind, hbase, ok_bind, hsuper, ok_bind, hcustom, ok_bind,
      hinterfaces, ok_bind, hversions, ok_bind, ← hcurrent]
    rfl

/-- An interface with the fields that it declares itself and those that it inherits. -/
def readInterface (config : Config) (own : OrderedMap Layout) (name : String)
    (written : InterfaceConfig) : Except SchemaError Interface := do
  let ancestry ← (hierarchy config).ancestry name |>.mapError .interfaceCycle
  let all ← inheritAll own ancestry ∅
  return ⟨written.extended, (own.get? name).getD ∅, all⟩

theorem checkExtensions_eq_ok_iff {entries : List (String × InterfaceConfig)} :
    checkExtensions config entries = .ok () ↔ ∀ entry ∈ entries,
      checkInterfaceNames config (.extendsList entry.1) entry.2.extended = .ok () := by
  induction entries with
  | nil => exact iff_of_true rfl nofun
  | cons entry rest ih =>
    rw [List.forall_mem_cons, ← ih, checkExtensions, bind_eq_ok]
    exact ⟨fun ⟨⟨⟩, hentry, hrest⟩ => ⟨hentry, hrest⟩, fun ⟨hentry, hrest⟩ => ⟨(), hentry, hrest⟩⟩

theorem readInterfaces_eq_ok_iff {interfaces : OrderedMap Interface} :
    readInterfaces config catalog = .ok interfaces ↔
      (∀ entry ∈ config.interfaces.entries,
        checkInterfaceNames config (.extendsList entry.1) entry.2.extended = .ok ()) ∧
      (hierarchy config).Acyclic ∧
      ∃ own, (config.interfaces.traverse fun name written =>
          readFields catalog (fun field => .interfaceField field name) written.fields) = .ok own ∧
        config.interfaces.traverse (readInterface config own) = .ok interfaces := by
  rw [← checkExtensions_eq_ok_iff, ← Hierarchy.circle?_eq_none_iff, readInterfaces, bind_eq_ok]
  constructor
  · rintro ⟨⟨⟩, hextensions, h⟩
    split at h
    · cases h
    · rename_i hnone
      exact ⟨hextensions, Option.eq_none_iff_forall_ne_some.mpr hnone, bind_eq_ok.mp h⟩
  · rintro ⟨hextensions, hnone, h⟩
    refine ⟨(), hextensions, ?_⟩
    rw [hnone]
    exact bind_eq_ok.mpr h

/-! ### Reading a reordered schema -/

variable (h : config.Reordered config')

include h

theorem checkInterfaceNames_reordered :
    checkInterfaceNames config = checkInterfaceNames config' := by
  funext mention names
  simp only [checkInterfaceNames, h.interfaces.mem_iff]

theorem readBaseType_reordered : readBaseType config = readBaseType config' := by
  funext catalog name written
  rw [readBaseType, readBaseType, checkInterfaceNames_reordered h]

theorem hierarchy_reordered : (hierarchy config).Reordered (hierarchy config') :=
  h.interfaces.map _

theorem parents_reordered (name : String) :
    (hierarchy config).parents name = (hierarchy config').parents name := by
  rw [Hierarchy.parents, (hierarchy_reordered h).get?_eq]
  rfl

theorem readInterface_reordered {own own' : OrderedMap Layout} (hown : own.Reordered own') :
    readInterface config own = readInterface config' own' := by
  have hall : ∀ names all, inheritAll own names all = inheritAll own' names all := by
    intro names
    induction names with
    | nil => exact fun all => rfl
    | cons name rest ih =>
      intro all
      simp only [inheritAll, hown.get?_eq, ih]
  funext name written
  simp only [readInterface, hall, hown.get?_eq,
    Hierarchy.ancestry_congr (fun _ => (hierarchy_reordered h).mem_iff) (parents_reordered h)]

theorem catalog_reordered (hcatalog : Catalog.ofConfig config = .ok catalog) :
    Catalog.ofConfig config' = .ok catalog := by
  obtain ⟨bases, hbase, hcatalog⟩ := bind_eq_ok.mp hcatalog
  obtain ⟨supers, hsuper, hcatalog⟩ := bind_eq_ok.mp hcatalog
  obtain ⟨customs, hcustom, hcatalog⟩ := bind_eq_ok.mp hcatalog
  obtain ⟨⟨⟩, hinterfaces, hcatalog⟩ := bind_eq_ok.mp hcatalog
  obtain rfl := Except.ok.inj hcatalog
  have hfree : customs.checkInterfaces config'.interfaces.keys = .ok () := by
    refine Catalog.checkInterfaces_eq_ok_iff.mpr fun name hname => ?_
    exact Catalog.checkInterfaces_eq_ok_iff.mp hinterfaces name (h.interfaces.mem_iff.mpr hname)
  rw [Catalog.ofConfig, Catalog.declareAll_perm h.baseTypes.keys_perm hbase, ok_bind,
    Catalog.declareAll_perm h.superTypes.keys_perm hsuper, ok_bind,
    Catalog.declareAll_perm h.customTypes.keys_perm hcustom, ok_bind, hfree, ok_bind]
  rfl

theorem exists_readInterfaces_reordered {interfaces : OrderedMap Interface}
    (hread : readInterfaces config catalog = .ok interfaces) :
    ∃ interfaces', readInterfaces config' catalog = .ok interfaces' ∧
      interfaces.Reordered interfaces' := by
  obtain ⟨hextensions, hacyclic, own, hown, hread⟩ := readInterfaces_eq_ok_iff.mp hread
  obtain ⟨own', hown', hsame⟩ := h.interfaces.exists_traverse hown
  obtain ⟨interfaces', hread', hreordered⟩ := h.interfaces.exists_traverse hread
  refine ⟨interfaces', readInterfaces_eq_ok_iff.mpr ⟨fun entry hentry => ?_, ?_, own', hown', ?_⟩,
    hreordered⟩
  · rw [← checkInterfaceNames_reordered h]
    exact hextensions entry (h.interfaces.symm.subset hentry)
  · exact (Hierarchy.acyclic_congr (parents_reordered h)).mp hacyclic
  · rw [← readInterface_reordered h hsame]
    exact hread'

/-- **Reordered schemas have reordered definitions.** -/
theorem exists_ofConfig_reordered (hdefinition : ofConfig config = .ok definition) :
    ∃ definition', ofConfig config' = .ok definition' ∧ definition.Reordered definition' := by
  have hresolves := ofConfig_eq_ok_iff.mp hdefinition
  obtain ⟨baseTypes, hbase, hbases⟩ := h.baseTypes.exists_traverse hresolves.baseTypes
  obtain ⟨superTypes, hsuper, hsupers⟩ := h.superTypes.exists_traverse hresolves.superTypes
  obtain ⟨customTypes, hcustom, hcustoms⟩ := h.customTypes.exists_traverse hresolves.customTypes
  obtain ⟨versions, hversion, hversions⟩ := h.versions.exists_traverse hresolves.versions
  obtain ⟨interfaces, hinterface, hinterfaces⟩ :=
    exists_readInterfaces_reordered h hresolves.interfaces
  rw [readBaseType_reordered h] at hbase
  refine ⟨⟨definition.currentVersion, definition.catalog, interfaces, baseTypes, superTypes,
    customTypes, versions⟩, ofConfig_eq_ok_iff.mpr ?_, ?_⟩
  · exact ⟨hresolves.currentVersion.trans h.currentVersion,
      catalog_reordered h hresolves.catalog, hbase, hsuper, hcustom, hinterface, hversion⟩
  · exact ⟨rfl, rfl, hinterfaces, hbases, hsupers, hcustoms, hversions⟩

end Definition

end SchemaEvolution

import SchemaEvolution.Definition
import SchemaEvolution.Proofs.Maps
import SchemaEvolution.Proofs.TypeName

/-!
# Resolved definitions

A definition that was resolved is sound: its catalog holds the declared and the native names with
their categories, every name in it is one that a reference can be read with, and everything that
a field, an interface or a super type mentions is in it.

## Main definitions

* `Catalog.Knows`: a reference to a declared or native type
* `Definition.Sound`: what holds of every resolved definition

## Main results

* `Definition.sound_of_ofConfig`: resolving yields a sound definition
* `Definition.ofConfig_blamesSchema`: resolving fails by the fault of the schema only
-/

namespace SchemaEvolution

theorem BlamesSchema.traverse {α β : Type} {m : OrderedMap α}
    {f : String → α → Except SchemaError β}
    (h : ∀ entry ∈ m.entries, BlamesSchema (f entry.1 entry.2)) : BlamesSchema (m.traverse f) := by
  intro e he
  obtain ⟨entry, hentry, hfailed⟩ := OrderedMap.exists_of_traverse_eq_error he
  exact h entry hentry e hfailed

/-! ## The catalog -/

namespace Catalog

/-- The reference is one to a declared or native type. -/
def Knows (catalog : Catalog) (ref : TypeRef) : Prop :=
  (catalog.category? ref.name).isSome = true

theorem category?_insert {catalog : Catalog} {name other : String} {category : TypeCategory} :
    category? (catalog.insert name category) other =
      if other = name then some category else catalog.category? other :=
  SortedMap.get?_insert

/-- The category of a name comes from one of the entries, or was there before. -/
theorem category?_foldl (entries : List (String × TypeCategory)) (catalog : Catalog)
    {name : String} {category : TypeCategory}
    (h : category? (entries.foldl (fun m entry => m.insert entry.1 entry.2) catalog) name =
      some category) :
    (name, category) ∈ entries ∨ catalog.category? name = some category := by
  induction entries generalizing catalog with
  | nil => exact .inr h
  | cons entry rest ih =>
    rcases ih _ h with hmem | hcat
    · exact .inl (List.mem_cons_of_mem _ hmem)
    · rw [category?_insert] at hcat
      split at hcat
      · rename_i hname
        obtain rfl := Option.some.inj hcat
        exact .inl (by rw [hname]; exact List.mem_cons_self)
      · exact .inr hcat

theorem category?_natives {name : String} {category : TypeCategory}
    (h : category? natives name = some category) :
    ∃ type : NativeType, name = type.name ∧ category = .native type := by
  rcases category?_foldl _ _ h with hmem | hnone
  · obtain ⟨type, -, htype⟩ := List.mem_map.mp hmem
    obtain ⟨rfl, rfl⟩ := Prod.mk.inj htype
    exact ⟨type, rfl, rfl⟩
  · cases hnone

theorem isName_native (type : NativeType) : TypeRef.IsName type.name := by
  cases type <;> exact ⟨by decide, List.all_eq_true.mp (by decide +kernel)⟩

theorem isName_of_checkName {name : String} (h : checkName name = .ok ()) :
    TypeRef.IsName name := by
  obtain ⟨ref, hparse, h⟩ := bind_eq_ok.mp h
  split at h
  · cases h
  · rename_i hplain
    have hname : ref.name = name := by simp_all
    exact hname ▸ TypeRef.isName_of_parse hparse

theorem declare_eq_ok {catalog out : Catalog} {name : String} {category : TypeCategory}
    (h : catalog.declare name category = .ok out) :
    catalog.category? name = none ∧ out = catalog.insert name category := by
  unfold declare at h
  split at h
  · cases h
  · exact ⟨‹_›, (Except.ok.inj h).symm⟩

/-- A section adds its own names, all of them new, under its category. -/
theorem category?_declareAll {category : TypeCategory} {names : List String}
    {catalog out : Catalog} (h : declareAll category names catalog = .ok out) :
    (∀ name ∈ names, TypeRef.IsName name) ∧ ∀ name other, out.category? name = some other ↔
      catalog.category? name = some other ∨ (other = category ∧ name ∈ names) := by
  induction names generalizing catalog with
  | nil =>
    obtain rfl := Except.ok.inj h
    simp
  | cons first rest ih =>
    obtain ⟨⟨⟩, hcheck, h⟩ := bind_eq_ok.mp h
    obtain ⟨middle, hdeclare, h⟩ := bind_eq_ok.mp h
    obtain ⟨hfree, rfl⟩ := declare_eq_ok hdeclare
    obtain ⟨hnames, hcat⟩ := ih h
    refine ⟨List.forall_mem_cons.mpr ⟨isName_of_checkName hcheck, hnames⟩, fun name other => ?_⟩
    rw [hcat, category?_insert]
    by_cases hname : name = first
    · subst hname
      simp [hfree, eq_comm]
      tauto
    · simp [hname]

/-- Three sections that are declared one after the other. -/
theorem category?_sections {bases supers customs : List String} {first second third : Catalog}
    (hbase : declareAll .base bases natives = .ok first)
    (hsuper : declareAll .super supers first = .ok second)
    (hcustom : declareAll .custom customs second = .ok third) (name : String)
    (category : TypeCategory) : third.category? name = some category ↔
      natives.category? name = some category ∨ (category = .base ∧ name ∈ bases) ∨
        (category = .super ∧ name ∈ supers) ∨ (category = .custom ∧ name ∈ customs) := by
  rw [(category?_declareAll hcustom).2, (category?_declareAll hsuper).2,
    (category?_declareAll hbase).2, or_assoc, or_assoc]

/-- **The catalog of a schema** holds the native types and the names of the three sections. -/
theorem category?_ofConfig {config : Config} {catalog : Catalog}
    (h : ofConfig config = .ok catalog) :
    (∀ name category, catalog.category? name = some category → TypeRef.IsName name) ∧
      ∀ name category, catalog.category? name = some category ↔
        natives.category? name = some category ∨
          (category = .base ∧ name ∈ config.baseTypes.keys) ∨
          (category = .super ∧ name ∈ config.superTypes.keys) ∨
          (category = .custom ∧ name ∈ config.customTypes.keys) := by
  obtain ⟨bases, hbase, h⟩ := bind_eq_ok.mp h
  obtain ⟨supers, hsuper, h⟩ := bind_eq_ok.mp h
  obtain ⟨customs, hcustom, h⟩ := bind_eq_ok.mp h
  obtain ⟨⟨⟩, -, h⟩ := bind_eq_ok.mp h
  obtain rfl := Except.ok.inj h
  have hcat := category?_sections hbase hsuper hcustom
  refine ⟨fun name category hname => ?_, hcat⟩
  rcases (hcat name category).mp hname with hnative | ⟨-, hmem⟩ | ⟨-, hmem⟩ | ⟨-, hmem⟩
  · obtain ⟨type, rfl, -⟩ := category?_natives hnative
    exact isName_native type
  · exact (category?_declareAll hbase).1 name hmem
  · exact (category?_declareAll hsuper).1 name hmem
  · exact (category?_declareAll hcustom).1 name hmem

theorem checkName_blamesSchema (name : String) : BlamesSchema (checkName name) := by
  refine (TypeRef.parse_blamesSchema name).bind fun ref _ => ?_
  split
  · exact .error rfl
  · exact .ok ()

theorem declareAll_blamesSchema (category : TypeCategory) (names : List String)
    (catalog : Catalog) : BlamesSchema (declareAll category names catalog) := by
  induction names generalizing catalog with
  | nil => exact .ok catalog
  | cons name rest ih =>
    refine (checkName_blamesSchema name).bind fun _ _ => BlamesSchema.bind ?_ fun _ _ => ih _
    unfold declare
    split
    · exact .error rfl
    · exact .ok _

theorem checkInterfaces_blamesSchema (catalog : Catalog) (names : List String) :
    BlamesSchema (catalog.checkInterfaces names) := by
  induction names with
  | nil => exact .ok ()
  | cons name rest ih =>
    unfold checkInterfaces
    split
    · exact .error rfl
    · exact ih

theorem ofConfig_blamesSchema (config : Config) : BlamesSchema (ofConfig config) :=
  (declareAll_blamesSchema _ _ _).bind fun _ _ =>
    (declareAll_blamesSchema _ _ _).bind fun _ _ =>
      (declareAll_blamesSchema _ _ _).bind fun catalog _ =>
        (checkInterfaces_blamesSchema _ _).bind fun _ _ => .ok catalog

end Catalog

/-! ## The definition -/

namespace Definition

/-- **A sound definition**: its catalog tells the three kinds of declared types apart, every name
in it is one that references can be read with, and whatever is mentioned is in it. -/
structure Sound (definition : Definition) : Prop where
  isName : ∀ {name category}, definition.catalog.category? name = some category →
    TypeRef.IsName name
  base : ∀ {name}, definition.catalog.category? name = some .base ↔ name ∈ definition.baseTypes
  super : ∀ {name}, definition.catalog.category? name = some .super ↔ name ∈ definition.superTypes
  custom : ∀ {name}, definition.catalog.category? name = some .custom ↔
    name ∈ definition.customTypes
  field : ∀ {name type}, definition.baseTypes.get? name = some type →
    ∀ ref ∈ type.fields.values, definition.catalog.Knows ref
  interfaceField : ∀ {name interface}, definition.interfaces.get? name = some interface →
    ∀ ref ∈ interface.fields.values, definition.catalog.Knows ref
  member : ∀ {name members}, definition.superTypes.get? name = some members →
    members.Nodup ∧ ∀ member ∈ members, definition.catalog.category? member = some .base

/-! ### Sections -/

theorem knows_of_readFields {catalog : Catalog} {mention : String → Mention}
    {fields : OrderedMap String} {layout : Layout}
    (h : readFields catalog mention fields = .ok layout) :
    ∀ ref ∈ layout.values, catalog.Knows ref := by
  intro ref href
  obtain ⟨⟨field, ref'⟩, hentry, rfl⟩ := List.mem_map.mp href
  obtain ⟨raw, -, hread⟩ :=
    OrderedMap.get?_of_traverse h (OrderedMap.get?_eq_some_iff.mpr hentry)
  obtain ⟨read, -, hread⟩ := bind_eq_ok.mp hread
  split at hread
  · rename_i hknown
    obtain rfl := Except.ok.inj hread
    exact hknown
  · cases hread

theorem base_of_checkMembers {catalog : Catalog} {superType : String}
    {members seen : List String} (h : checkMembers catalog superType members seen = .ok ()) :
    members.Nodup ∧ (∀ member ∈ members, member ∉ seen) ∧
      ∀ member ∈ members, catalog.category? member = some .base := by
  induction members generalizing seen with
  | nil => simp
  | cons first rest ih =>
    unfold checkMembers at h
    split at h
    · rename_i hbase
      split at h
      · cases h
      · rename_i hseen
        obtain ⟨hnodup, hfresh, hbases⟩ := ih h
        have hnot : first ∉ rest := fun hmem => hfresh first hmem List.mem_cons_self
        refine ⟨List.nodup_cons.mpr ⟨hnot, hnodup⟩, ?_, ?_⟩
        · exact List.forall_mem_cons.mpr ⟨by simpa using hseen,
            fun member hmem hin => hfresh member hmem (List.mem_cons_of_mem _ hin)⟩
        · exact List.forall_mem_cons.mpr ⟨hbase, hbases⟩
    · cases h
    · cases h

theorem knows_of_readInterfaces {config : Config} {catalog : Catalog}
    {interfaces : OrderedMap Interface} (h : readInterfaces config catalog = .ok interfaces)
    {name : String} {interface : Interface} (hget : interfaces.get? name = some interface) :
    ∀ ref ∈ interface.fields.values, catalog.Knows ref := by
  unfold readInterfaces at h
  obtain ⟨⟨⟩, -, h⟩ := bind_eq_ok.mp h
  split at h
  · cases h
  · obtain ⟨own, hown, h⟩ := bind_eq_ok.mp h
    obtain ⟨written, hwritten, h⟩ := OrderedMap.get?_of_traverse h hget
    obtain ⟨ancestry, -, h⟩ := bind_eq_ok.mp h
    obtain ⟨all, -, h⟩ := bind_eq_ok.mp h
    obtain rfl := Except.ok.inj h
    have hmem : name ∈ own := by
      rw [OrderedMap.mem_iff_mem_keys, OrderedMap.keys_of_traverse hown]
      exact OrderedMap.mem_of_get? hwritten
    obtain ⟨layout, hlayout⟩ := OrderedMap.exists_get?_of_mem hmem
    obtain ⟨_, -, hread⟩ := OrderedMap.get?_of_traverse hown hlayout
    simpa [hlayout] using knows_of_readFields hread

/-- **Resolving yields a sound definition.** -/
theorem sound_of_ofConfig {config : Config} {definition : Definition}
    (h : ofConfig config = .ok definition) : definition.Sound := by
  obtain ⟨catalog, hcatalog, h⟩ := bind_eq_ok.mp h
  obtain ⟨baseTypes, hbase, h⟩ := bind_eq_ok.mp h
  obtain ⟨superTypes, hsuper, h⟩ := bind_eq_ok.mp h
  obtain ⟨customTypes, hcustom, h⟩ := bind_eq_ok.mp h
  obtain ⟨interfaces, hinterfaces, h⟩ := bind_eq_ok.mp h
  obtain ⟨versions, -, h⟩ := bind_eq_ok.mp h
  obtain rfl := Except.ok.inj h
  obtain ⟨hname, hcat⟩ := Catalog.category?_ofConfig hcatalog
  have hnative : ∀ category : TypeCategory, (∀ type, category ≠ .native type) →
      ∀ name, Catalog.category? Catalog.natives name ≠ some category := by
    intro category hdeclared name hname
    obtain ⟨type, -, htype⟩ := Catalog.category?_natives hname
    exact hdeclared type htype
  refine ⟨fun h => hname _ _ h, ?_, ?_, ?_, ?_, ?_, ?_⟩
  · intro name
    rw [hcat, OrderedMap.mem_iff_mem_keys, OrderedMap.keys_of_traverse hbase]
    simp [hnative .base (by simp)]
  · intro name
    rw [hcat, OrderedMap.mem_iff_mem_keys, OrderedMap.keys_of_traverse hsuper]
    simp [hnative .super (by simp)]
  · intro name
    rw [hcat, OrderedMap.mem_iff_mem_keys, OrderedMap.keys_of_traverse hcustom]
    simp [hnative .custom (by simp)]
  · intro name type hget
    obtain ⟨written, -, hread⟩ := OrderedMap.get?_of_traverse hbase hget
    obtain ⟨layout, hlayout, hread⟩ := bind_eq_ok.mp hread
    obtain ⟨⟨⟩, -, hread⟩ := bind_eq_ok.mp hread
    obtain rfl := Except.ok.inj hread
    exact knows_of_readFields hlayout
  · intro name interface hget
    exact knows_of_readInterfaces hinterfaces hget
  · intro name members hget
    obtain ⟨written, -, hread⟩ := OrderedMap.get?_of_traverse hsuper hget
    obtain ⟨⟨⟩, hcheck, hread⟩ := bind_eq_ok.mp hread
    obtain rfl := Except.ok.inj hread
    obtain ⟨hnodup, -, hbases⟩ := base_of_checkMembers hcheck
    exact ⟨hnodup, hbases⟩

/-! ### Blame -/

theorem readFields_blamesSchema (catalog : Catalog) (mention : String → Mention)
    (fields : OrderedMap String) : BlamesSchema (readFields catalog mention fields) := by
  refine BlamesSchema.traverse fun entry _ => ?_
  refine (TypeRef.parse_blamesSchema _).bind fun ref _ => ?_
  split
  · exact .ok _
  · exact .error rfl

theorem checkInterfaceNames_blamesSchema (config : Config) (mention : Mention)
    (names : List String) : BlamesSchema (checkInterfaceNames config mention names) := by
  unfold checkInterfaceNames
  split
  · exact .error rfl
  · exact .ok ()

theorem checkMembers_blamesSchema (catalog : Catalog) (superType : String)
    (members seen : List String) :
    BlamesSchema (checkMembers catalog superType members seen) := by
  induction members generalizing seen with
  | nil => exact .ok ()
  | cons member rest ih =>
    unfold checkMembers
    split
    · split
      · exact .error rfl
      · exact ih _
    · exact .error rfl
    · exact .error rfl

theorem codeRef_parse_blamesSchema (raw : String) : BlamesSchema (CodeRef.parse raw) := by
  unfold CodeRef.parse
  split
  · exact .ok _
  · exact .error rfl

theorem checkExtensions_blamesSchema (config : Config)
    (entries : List (String × InterfaceConfig)) :
    BlamesSchema (checkExtensions config entries) := by
  induction entries with
  | nil => exact .ok ()
  | cons entry rest ih =>
    exact (checkInterfaceNames_blamesSchema _ _ _).bind fun _ _ => ih

theorem inheritFields_blamesSchema (interface : String) (fields : List (String × TypeRef))
    (all : Layout) : BlamesSchema (inheritFields interface fields all) := by
  induction fields generalizing all with
  | nil => exact .ok all
  | cons field rest ih =>
    unfold inheritFields
    split
    · exact ih _
    · split
      · exact ih _
      · exact .error rfl

theorem inheritAll_blamesSchema (own : OrderedMap Layout) (names : List String) (all : Layout) :
    BlamesSchema (inheritAll own names all) := by
  induction names generalizing all with
  | nil => exact .ok all
  | cons name rest ih =>
    exact (inheritFields_blamesSchema _ _ _).bind fun _ _ => ih _

theorem readInterfaces_blamesSchema (config : Config) (catalog : Catalog) :
    BlamesSchema (readInterfaces config catalog) := by
  refine (checkExtensions_blamesSchema _ _).bind fun _ _ => ?_
  split
  · exact .error rfl
  · refine (BlamesSchema.traverse fun _ _ => readFields_blamesSchema _ _ _).bind fun own _ => ?_
    refine BlamesSchema.traverse fun entry _ => BlamesSchema.bind ?_ fun ancestry _ =>
      (inheritAll_blamesSchema _ _ _).bind fun _ _ => .ok _
    cases (hierarchy config).ancestry entry.1 with
    | error circle => exact .error rfl
    | ok ancestry => exact .ok ancestry

theorem resolve_blamesSchema {τ κ τ' κ' : Type}
    {resolve : τ → κ → List String → Except SchemaError (τ' × κ')}
    (h : ∀ type code context, BlamesSchema (resolve type code context))
    (change : FieldChange τ κ) : BlamesSchema (change.traverse resolve) := by
  cases change with
  | move source target index => exact .ok _
  | remove field => exact .ok _
  | insert field type code context index =>
    rw [FieldChange.traverse]
    split
    · exact .error (h _ _ _ _ ‹_›)
    · exact .ok _
  | convert field type code context =>
    rw [FieldChange.traverse]
    split
    · exact .error (h _ _ _ _ ‹_›)
    · exact .ok _

theorem readVersion_blamesSchema (written : VersionConfig) :
    BlamesSchema (readVersion written) := by
  refine BlamesSchema.bind (.mapM fun step _ => ?_) fun _ _ => .ok _
  refine (resolve_blamesSchema (fun type code _ => ?_) _).bind fun _ _ => .ok _
  exact (TypeRef.parse_blamesSchema type).bind fun _ _ =>
    (codeRef_parse_blamesSchema code).bind fun _ _ => .ok _

/-- **Resolving fails by the fault of the schema only.** -/
theorem ofConfig_blamesSchema (config : Config) : BlamesSchema (ofConfig config) := by
  refine (Catalog.ofConfig_blamesSchema config).bind fun catalog _ => ?_
  refine (BlamesSchema.traverse fun _ _ => ?_).bind fun baseTypes _ => ?_
  · exact (readFields_blamesSchema _ _ _).bind fun _ _ =>
      (checkInterfaceNames_blamesSchema _ _ _).bind fun _ _ => .ok _
  refine (BlamesSchema.traverse fun _ _ => ?_).bind fun superTypes _ => ?_
  · exact (checkMembers_blamesSchema _ _ _ _).bind fun _ _ => .ok _
  refine (BlamesSchema.traverse fun _ _ => ?_).bind fun customTypes _ => ?_
  · exact (codeRef_parse_blamesSchema _).bind fun _ _ =>
      (codeRef_parse_blamesSchema _).bind fun _ _ => .ok _
  refine (readInterfaces_blamesSchema _ _).bind fun interfaces _ => ?_
  exact (BlamesSchema.traverse fun _ _ => readVersion_blamesSchema _).bind fun _ _ => .ok _

end Definition

end SchemaEvolution

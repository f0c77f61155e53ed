import SchemaEvolution.Proofs.Inheritance
import SchemaEvolution.Proofs.Reordering

/-!
# Exactly the well-formed schemas are resolved

A schema is well-formed when its names are names and do not clash, whatever it mentions is there,
its interfaces extend each other without a circle and agree on the fields that they share, and all
types and code in it can be read. These are the schemas that have a definition. The catalog of the
definition knows the native types and the declared ones, and nothing else.

## Main definitions

* `Config.IsTypeName`, `Config.Mentions`, `Config.Declares`: what a schema says of a name
* `Config.WellFormed`: the well-formed schemas
* `Catalog.Free`: names that can be declared together

## Main results

* `Catalog.exists_ofConfig_iff`: when a schema has a catalog
* `Definition.exists_readInterfaces_iff`: when the interfaces of a schema can be read
* `Definition.ofConfig_exact`: exactly the well-formed schemas have a definition
-/

namespace SchemaEvolution

open Relation (ReflTransGen)

/-! ## Well-formed schemas -/

namespace Config

/-- The names of all declared types, section by section. -/
def typeNames (config : Config) : List String :=
  config.baseTypes.keys ++ config.superTypes.keys ++ config.customTypes.keys

/-- The name is that of a declared or native type. -/
def IsTypeName (config : Config) (name : String) : Prop :=
  name ∈ config.typeNames ∨ ∃ type : NativeType, type.name = name

/-- The text refers to a declared or native type, never to an interface. -/
def Mentions (config : Config) (raw : String) : Prop :=
  ∃ ref, TypeRef.parse raw = .ok ref ∧ config.IsTypeName ref.name ∧ ref.name ∉ config.interfaces

/-- The interface itself declares the field with the type. -/
def Declares (config : Config) (interface field : String) (type : TypeRef) : Prop :=
  ∃ written raw, config.interfaces.get? interface = some written ∧
    written.fields.get? field = some raw ∧ TypeRef.parse raw = .ok type

/-- The interface, or one that it extends, declares the field with the type. -/
def HasField (config : Config) (interface field : String) (type : TypeRef) : Prop :=
  ∃ other, ReflTransGen (Definition.hierarchy config).Extends interface other ∧
    config.Declares other field type

/-- **The well-formed schemas.** -/
structure WellFormed (config : Config) : Prop where
  /-- Every type name is read as a reference to itself. -/
  typeName : ∀ name ∈ config.typeNames, TypeRef.parse name = .ok ⟨name, .plain⟩
  /-- No two types have one name. -/
  distinct : config.typeNames.Nodup
  notNative : ∀ name ∈ config.typeNames, ∀ type : NativeType, type.name ≠ name
  interfaceName : ∀ name ∈ config.interfaces, ¬config.IsTypeName name
  baseField : ∀ name written, config.baseTypes.get? name = some written →
    ∀ field raw, written.fields.get? field = some raw → config.Mentions raw
  interfaceField : ∀ name written, config.interfaces.get? name = some written →
    ∀ field raw, written.fields.get? field = some raw → config.Mentions raw
  implemented : ∀ name written, config.baseTypes.get? name = some written →
    ∀ interface ∈ written.implemented, interface ∈ config.interfaces
  extended : ∀ name written, config.interfaces.get? name = some written →
    ∀ interface ∈ written.extended, interface ∈ config.interfaces
  /-- The members of a super type are base types, none of them twice. -/
  member : ∀ name members, config.superTypes.get? name = some members →
    members.Nodup ∧ ∀ member ∈ members, member ∈ config.baseTypes
  /-- No interface extends itself, be it through others. -/
  acyclic : (Definition.hierarchy config).Acyclic
  /-- An interface and those that it extends, be it through others, agree on the types of the
  fields that they declare. -/
  consistent : ∀ name ∈ config.interfaces, ∀ first second,
    ReflTransGen (Definition.hierarchy config).Extends name first →
      ReflTransGen (Definition.hierarchy config).Extends name second →
        ∀ field type type', config.Declares first field type →
          config.Declares second field type' → type = type'
  custom : ∀ name written, config.customTypes.get? name = some written →
    (∃ code, CodeRef.parse written.representation = .ok code) ∧
      ∃ code, CodeRef.parse written.serializer = .ok code
  /-- Every type and all code that a transformation brings in can be read. -/
  transformation : ∀ name written, config.versions.get? name = some written →
    ∀ step ∈ written.transformations,
      (∀ raw, step.change.introduced? = some raw → ∃ ref, TypeRef.parse raw = .ok ref) ∧
        ∀ raw, step.change.code? = some raw → ∃ code, CodeRef.parse raw = .ok code

end Config

/-! ## The catalog -/

namespace Catalog

variable {config : Config} {category : TypeCategory} {names names' : List String}
  {catalog out : Catalog} {name : String}

theorem checkName_eq_ok_iff :
    checkName name = .ok () ↔ TypeRef.parse name = .ok ⟨name, .plain⟩ := by
  rw [checkName, bind_eq_ok]
  constructor
  · rintro ⟨ref, hparse, h⟩
    split at h
    · cases h
    · rename_i hplain
      obtain ⟨name', modifier⟩ := ref
      simp only [TypeRef.isWrapped, Bool.or_eq_true, bne_iff_ne, ne_eq, not_or, not_not] at hplain
      rw [hparse, hplain.1, hplain.2]
  · intro hparse
    exact ⟨_, hparse, by simp [TypeRef.isWrapped]; rfl⟩

theorem category?_natives_iff : natives.category? name = some category ↔
    ∃ type : NativeType, type.name = name ∧ category = .native type := by
  constructor
  · intro h
    obtain ⟨type, rfl, rfl⟩ := category?_natives h
    exact ⟨type, rfl, rfl⟩
  · rintro ⟨type, rfl, rfl⟩
    cases type <;> rfl

/-- **Names that can be declared together**: each is read as a reference to itself, none is taken
and none is repeated. -/
structure Free (catalog : Catalog) (names : List String) : Prop where
  isName : ∀ name ∈ names, TypeRef.parse name = .ok ⟨name, .plain⟩
  nodup : names.Nodup
  free : ∀ name ∈ names, catalog.category? name = none

theorem free_cons_iff : catalog.Free (name :: names) ↔ TypeRef.parse name = .ok ⟨name, .plain⟩ ∧
    catalog.category? name = none ∧ Free (catalog.insert name category) names := by
  constructor
  · rintro ⟨hnames, hnodup, hfree⟩
    obtain ⟨hname, hnames⟩ := List.forall_mem_cons.mp hnames
    obtain ⟨hnew, hnodup⟩ := List.nodup_cons.mp hnodup
    obtain ⟨hfirst, hfree⟩ := List.forall_mem_cons.mp hfree
    refine ⟨hname, hfirst, hnames, hnodup, fun other hother => ?_⟩
    rw [category?_insert, if_neg, hfree other hother]
    rintro rfl
    exact hnew hother
  · rintro ⟨hname, hfirst, hnames, hnodup, hfree⟩
    simp only [category?_insert] at hfree
    refine ⟨List.forall_mem_cons.mpr ⟨hname, hnames⟩, List.nodup_cons.mpr ⟨fun hmem => ?_, hnodup⟩,
      List.forall_mem_cons.mpr ⟨hfirst, fun other hother => ?_⟩⟩
    · simpa using hfree name hmem
    · by_cases hsame : other = name
      · rw [hsame, hfirst]
      · simpa [hsame] using hfree other hother

variable (category) in
theorem exists_declareAll_iff :
    (∃ out, declareAll category names catalog = .ok out) ↔ catalog.Free names := by
  induction names generalizing catalog with
  | nil => exact iff_of_true ⟨catalog, rfl⟩ ⟨nofun, List.nodup_nil, nofun⟩
  | cons name rest ih =>
    simp only [declareAll_cons_eq_ok_iff, exists_and_left, ih, checkName_eq_ok_iff]
    exact free_cons_iff.symm

variable (category) in
/-- **Two sections can be declared together** exactly if the second one is free behind the
first. -/
theorem exists_declareAll_append_iff :
    (∃ middle, declareAll category names catalog = .ok middle ∧ middle.Free names') ↔
      catalog.Free (names ++ names') := by
  have hnone : ∀ {middle}, declareAll category names catalog = .ok middle → ∀ name,
      middle.category? name = none ↔ catalog.category? name = none ∧ name ∉ names := by
    intro middle h name
    simp only [Option.eq_none_iff_forall_ne_some, (category?_declareAll h).2, not_or, not_and,
      ne_eq]
    exact ⟨fun hall => ⟨fun category => (hall category).1, (hall _).2 rfl⟩,
      fun hboth other => ⟨hboth.1 other, fun _ => hboth.2⟩⟩
  constructor
  · rintro ⟨middle, h, hnames', hnodup', hfree'⟩
    obtain ⟨hnames, hnodup, hfree⟩ := (exists_declareAll_iff category).mp ⟨middle, h⟩
    refine ⟨List.forall_mem_append.mpr ⟨hnames, hnames'⟩,
      List.nodup_append.mpr ⟨hnodup, hnodup', ?_⟩, List.forall_mem_append.mpr ⟨hfree, ?_⟩⟩
    · rintro name hname other hother rfl
      exact ((hnone h name).mp (hfree' name hother)).2 hname
    · exact fun name hname => ((hnone h name).mp (hfree' name hname)).1
  · rintro ⟨hnames, hnodup, hfree⟩
    obtain ⟨hnames, hnames'⟩ := List.forall_mem_append.mp hnames
    obtain ⟨hfirst, hrest, hapart⟩ := List.nodup_append.mp hnodup
    obtain ⟨hfree, hfree'⟩ := List.forall_mem_append.mp hfree
    obtain ⟨middle, h⟩ := (exists_declareAll_iff category).mpr ⟨hnames, hfirst, hfree⟩
    refine ⟨middle, h, hnames', hrest, fun name hname => (hnone h name).mpr ⟨hfree' name hname, ?_⟩⟩
    exact fun hmem => hapart name hmem name hname rfl

/-- **The catalog holds the native types and the three sections**, each under its category. -/
def Lists (catalog : Catalog) (config : Config) : Prop :=
  ∀ name category, catalog.category? name = some category ↔
    natives.category? name = some category ∨ (category = .base ∧ name ∈ config.baseTypes.keys) ∨
      (category = .super ∧ name ∈ config.superTypes.keys) ∨
        (category = .custom ∧ name ∈ config.customTypes.keys)

theorem lists_of_ofConfig (h : ofConfig config = .ok catalog) : catalog.Lists config :=
  (category?_ofConfig h).2

namespace Lists

variable (h : catalog.Lists config)

include h

theorem isSome_iff : (catalog.category? name).isSome = true ↔ config.IsTypeName name := by
  rw [Option.isSome_iff_exists]
  simp only [h name, category?_natives_iff, Config.IsTypeName, Config.typeNames, List.mem_append]
  constructor
  · rintro ⟨category, ⟨type, htype, -⟩ | ⟨-, hbase⟩ | ⟨-, hsuper⟩ | ⟨-, hcustom⟩⟩
    · exact .inr ⟨type, htype⟩
    · exact .inl (.inl (.inl hbase))
    · exact .inl (.inl (.inr hsuper))
    · exact .inl (.inr hcustom)
  · rintro (((hbase | hsuper) | hcustom) | ⟨type, htype⟩)
    · exact ⟨.base, .inr (.inl ⟨rfl, hbase⟩)⟩
    · exact ⟨.super, .inr (.inr (.inl ⟨rfl, hsuper⟩))⟩
    · exact ⟨.custom, .inr (.inr (.inr ⟨rfl, hcustom⟩))⟩
    · exact ⟨.native type, .inl ⟨type, htype, rfl⟩⟩

theorem base_iff : catalog.category? name = some .base ↔ name ∈ config.baseTypes := by
  rw [h name, category?_natives_iff, OrderedMap.mem_iff_mem_keys]
  simp

/-- No interface has the name of a type. -/
theorem checkInterfaces_iff : catalog.checkInterfaces config.interfaces.keys = .ok () ↔
    ∀ name ∈ config.interfaces, ¬config.IsTypeName name := by
  simp only [checkInterfaces_eq_ok_iff, ← h.isSome_iff, Option.not_isSome_iff_eq_none]
  rfl

end Lists

/-- **A schema has a catalog** exactly if its names can be declared and no interface has the name
of a type. -/
theorem exists_ofConfig_iff : (∃ catalog, ofConfig config = .ok catalog) ↔
    natives.Free config.typeNames ∧ ∀ name ∈ config.interfaces, ¬config.IsTypeName name := by
  rw [Config.typeNames, List.append_assoc, ← exists_declareAll_append_iff .base]
  simp only [← exists_declareAll_append_iff .super, ← exists_declareAll_iff .custom]
  constructor
  · rintro ⟨catalog, h⟩
    have hlists := lists_of_ofConfig h
    obtain ⟨bases, hbase, h⟩ := bind_eq_ok.mp h
    obtain ⟨supers, hsuper, h⟩ := bind_eq_ok.mp h
    obtain ⟨customs, hcustom, h⟩ := bind_eq_ok.mp h
    obtain ⟨⟨⟩, hcheck, h⟩ := bind_eq_ok.mp h
    obtain rfl := Except.ok.inj h
    exact ⟨⟨bases, hbase, supers, hsuper, customs, hcustom⟩, hlists.checkInterfaces_iff.mp hcheck⟩
  · rintro ⟨⟨bases, hbase, supers, hsuper, customs, hcustom⟩, hfree⟩
    have hlists : customs.Lists config := category?_sections hbase hsuper hcustom
    refine ⟨customs, ?_⟩
    rw [ofConfig, hbase, ok_bind, hsuper, ok_bind, hcustom, ok_bind,
      hlists.checkInterfaces_iff.mpr hfree]
    rfl

end Catalog

/-! ## The definition -/

namespace Definition

variable {config : Config} {catalog : Catalog}

theorem checkInterfaceNames_eq_ok_iff {mention : Mention} {names : List String} :
    checkInterfaceNames config mention names = .ok () ↔
      ∀ name ∈ names, name ∈ config.interfaces := by
  unfold checkInterfaceNames
  cases hfind : names.find? fun name => !decide (name ∈ config.interfaces) with
  | none =>
    refine iff_of_true rfl fun name hname => ?_
    simpa using List.find?_eq_none.mp hfind name hname
  | some name =>
    refine iff_of_false nofun fun hall => ?_
    have hmem := hall name (List.mem_of_find?_eq_some hfind)
    simpa [hmem] using List.find?_some hfind

theorem checkMembers_eq_ok_iff {superType : String} {members seen : List String} :
    checkMembers catalog superType members seen = .ok () ↔ members.Nodup ∧
      (∀ member ∈ members, member ∉ seen) ∧
        ∀ member ∈ members, catalog.category? member = some .base := by
  refine ⟨base_of_checkMembers, ?_⟩
  induction members generalizing seen with
  | nil => exact fun _ => rfl
  | cons member rest ih =>
    rintro ⟨hnodup, hfresh, hbase⟩
    obtain ⟨hnew, hnodup⟩ := List.nodup_cons.mp hnodup
    obtain ⟨hfirst, hfresh⟩ := List.forall_mem_cons.mp hfresh
    obtain ⟨hcategory, hbase⟩ := List.forall_mem_cons.mp hbase
    rw [checkMembers, hcategory]
    dsimp only
    rw [if_neg (by simpa using hfirst)]
    refine ih ⟨hnodup, fun other hother hmem => ?_, hbase⟩
    rcases List.mem_cons.mp hmem with rfl | hseen
    · exact hnew hother
    · exact hfresh other hother hseen

/-- A transformation is read exactly if the type and the code in it are. -/
theorem exists_readStep_iff {written : StepConfig} : (∃ step, readStep written = .ok step) ↔
    (∀ raw, written.change.introduced? = some raw → ∃ ref, TypeRef.parse raw = .ok ref) ∧
      ∀ raw, written.change.code? = some raw → ∃ code, CodeRef.parse raw = .ok code := by
  obtain ⟨type, change⟩ := written
  unfold readStep
  cases change with
  | move source target index => exact iff_of_true ⟨_, rfl⟩ ⟨nofun, nofun⟩
  | remove field => exact iff_of_true ⟨_, rfl⟩ ⟨nofun, nofun⟩
  | insert field raw code context index =>
    simp only [FieldChange.traverse, FieldChange.introduced?, FieldChange.code?,
      Option.some.injEq, forall_eq']
    cases TypeRef.parse raw <;> cases CodeRef.parse code <;>
      simp [bind, Except.bind, pure, Except.pure]
  | convert field raw code context =>
    simp only [FieldChange.traverse, FieldChange.introduced?, FieldChange.code?,
      Option.some.injEq, forall_eq']
    cases TypeRef.parse raw <;> cases CodeRef.parse code <;>
      simp [bind, Except.bind, pure, Except.pure]

theorem exists_versions_iff :
    (∃ versions, (config.versions.traverse fun _ written => readVersion written) = .ok versions) ↔
      ∀ name written, config.versions.get? name = some written →
        ∀ step ∈ written.transformations, ∃ step', readStep step = .ok step' := by
  rw [OrderedMap.exists_traverse_iff]
  refine forall₃_congr fun name written _ => ?_
  rw [← exists_mapM_iff]
  constructor
  · rintro ⟨version, h⟩
    obtain ⟨steps, hsteps, -⟩ := bind_eq_ok.mp h
    exact ⟨steps, hsteps⟩
  · rintro ⟨steps, hsteps⟩
    exact ⟨_, bind_eq_ok.mpr ⟨steps, hsteps, rfl⟩⟩

theorem exists_customTypes_iff :
    (∃ customTypes, (config.customTypes.traverse fun _ written => readCustomType written) =
        .ok customTypes) ↔
      ∀ name written, config.customTypes.get? name = some written →
        (∃ code, CodeRef.parse written.representation = .ok code) ∧
          ∃ code, CodeRef.parse written.serializer = .ok code := by
  rw [OrderedMap.exists_traverse_iff]
  refine forall₃_congr fun name written _ => ?_
  constructor
  · rintro ⟨custom, h⟩
    obtain ⟨representation, hrepresentation, h⟩ := bind_eq_ok.mp h
    obtain ⟨serializer, hserializer, -⟩ := bind_eq_ok.mp h
    exact ⟨⟨representation, hrepresentation⟩, serializer, hserializer⟩
  · rintro ⟨⟨representation, hrepresentation⟩, serializer, hserializer⟩
    exact ⟨_, bind_eq_ok.mpr ⟨_, hrepresentation, bind_eq_ok.mpr ⟨_, hserializer, rfl⟩⟩⟩

/-! ### Types and interfaces -/

/-- The fields that an interface declares itself. -/
def readOwnFields (catalog : Catalog) (name : String) (written : InterfaceConfig) :
    Except SchemaError Layout :=
  readFields catalog (fun field => .interfaceField field name) written.fields

section Resolved

variable (h : catalog.Lists config)

include h

theorem exists_superTypes_iff :
    (∃ superTypes, config.superTypes.traverse (readSuperType catalog) = .ok superTypes) ↔
      ∀ name members, config.superTypes.get? name = some members →
        members.Nodup ∧ ∀ member ∈ members, member ∈ config.baseTypes := by
  rw [OrderedMap.exists_traverse_iff]
  refine forall₃_congr fun name members _ => ?_
  have hcheck : checkMembers catalog name members [] = .ok () ↔
      members.Nodup ∧ ∀ member ∈ members, member ∈ config.baseTypes := by
    simp [checkMembers_eq_ok_iff, h.base_iff]
  rw [← hcheck]
  constructor
  · rintro ⟨out, hout⟩
    obtain ⟨⟨⟩, hmembers, -⟩ := bind_eq_ok.mp hout
    exact hmembers
  · intro hmembers
    exact ⟨members, bind_eq_ok.mpr ⟨(), hmembers, rfl⟩⟩

/-- A field is read exactly if its text refers to a declared or native type. -/
theorem readField_eq_ok_iff {mention : Mention} {raw : String} {ref : TypeRef} :
    (do
      let ref ← TypeRef.parse raw
      if (catalog.category? ref.name).isSome then return ref
      else throw (SchemaError.unknownType ref.name mention)) = Except.ok ref ↔
      TypeRef.parse raw = .ok ref ∧ config.IsTypeName ref.name := by
  rw [bind_eq_ok]
  constructor
  · rintro ⟨read, hparse, hread⟩
    split at hread
    · rename_i hknown
      obtain rfl := Except.ok.inj hread
      exact ⟨hparse, h.isSome_iff.mp hknown⟩
    · cases hread
  · rintro ⟨hparse, hname⟩
    exact ⟨ref, hparse, by rw [if_pos (h.isSome_iff.mpr hname)]; rfl⟩

theorem exists_readFields_iff (hfree : ∀ name ∈ config.interfaces, ¬config.IsTypeName name)
    {mention : String → Mention} {fields : OrderedMap String} :
    (∃ layout, readFields catalog mention fields = .ok layout) ↔
      ∀ field raw, fields.get? field = some raw → config.Mentions raw := by
  rw [readFields, OrderedMap.exists_traverse_iff]
  refine forall₃_congr fun field raw _ => exists_congr fun ref => ?_
  rw [readField_eq_ok_iff h]
  exact and_congr_right fun _ =>
    ⟨fun hname => ⟨hname, fun hmem => hfree _ hmem hname⟩, And.left⟩

theorem get?_readFields_iff {mention : String → Mention} {fields : OrderedMap String}
    {layout : Layout} (hread : readFields catalog mention fields = .ok layout) {field : String}
    {type : TypeRef} : layout.get? field = some type ↔
      ∃ raw, fields.get? field = some raw ∧ TypeRef.parse raw = .ok type := by
  rw [readFields] at hread
  rw [OrderedMap.get?_traverse_iff hread]
  refine exists_congr fun raw => and_congr_right fun hget => ?_
  obtain ⟨ref, href⟩ := OrderedMap.exists_traverse_iff.mp ⟨layout, hread⟩ field raw hget
  rw [readField_eq_ok_iff h] at href ⊢
  refine ⟨And.left, fun hparse => ⟨hparse, ?_⟩⟩
  obtain rfl := Except.ok.inj (href.1.symm.trans hparse)
  exact href.2

theorem exists_baseTypes_iff (hfree : ∀ name ∈ config.interfaces, ¬config.IsTypeName name) :
    (∃ baseTypes, config.baseTypes.traverse (readBaseType config catalog) = .ok baseTypes) ↔
      ∀ name written, config.baseTypes.get? name = some written →
        (∀ field raw, written.fields.get? field = some raw → config.Mentions raw) ∧
          ∀ interface ∈ written.implemented, interface ∈ config.interfaces := by
  rw [OrderedMap.exists_traverse_iff]
  refine forall₃_congr fun name written _ => ?_
  rw [← exists_readFields_iff h hfree, ← checkInterfaceNames_eq_ok_iff]
  constructor
  · rintro ⟨type, hread⟩
    obtain ⟨fields, hfields, hread⟩ := bind_eq_ok.mp hread
    obtain ⟨⟨⟩, himplemented, -⟩ := bind_eq_ok.mp hread
    exact ⟨⟨fields, hfields⟩, himplemented⟩
  · rintro ⟨⟨fields, hfields⟩, himplemented⟩
    exact ⟨_, bind_eq_ok.mpr ⟨fields, hfields, bind_eq_ok.mpr ⟨(), himplemented, rfl⟩⟩⟩

/-! ### Interfaces -/

omit h in
theorem extends_iff {name parent : String} : (hierarchy config).Extends name parent ↔
    ∃ written, config.interfaces.get? name = some written ∧ parent ∈ written.extended := by
  rw [Hierarchy.Extends, Hierarchy.parents, hierarchy, OrderedMap.get?_map]
  cases config.interfaces.get? name <;> simp

omit h in
theorem closed_of_declared (h : ∀ name written, config.interfaces.get? name = some written →
    ∀ interface ∈ written.extended, interface ∈ config.interfaces) :
    (hierarchy config).Closed := by
  intro name parent hextends
  obtain ⟨written, hwritten, hparent⟩ := extends_iff.mp hextends
  exact OrderedMap.mem_map_iff.mpr (h name written hwritten parent hparent)

omit h in
/-- An interface inherits exactly if it has an ancestry with unambiguous fields. -/
theorem exists_readInterface_iff {own : OrderedMap Layout} {name : String}
    {written : InterfaceConfig} :
    (∃ interface, readInterface config own name written = .ok interface) ↔
      ∃ names, (hierarchy config).ancestry name = .ok names ∧
        Unambiguous (Inherits own names ∅) := by
  simp only [← (inheritAll_spec own _ ∅).1]
  constructor
  · rintro ⟨interface, hread⟩
    obtain ⟨names, hnames, hread⟩ := bind_eq_ok.mp hread
    obtain ⟨all, hall, -⟩ := bind_eq_ok.mp hread
    cases hancestry : (hierarchy config).ancestry name with
    | error circle => rw [hancestry] at hnames; cases hnames
    | ok found =>
      rw [hancestry] at hnames
      obtain rfl := Except.ok.inj hnames
      exact ⟨_, rfl, all, hall⟩
  · rintro ⟨names, hnames, all, hall⟩
    refine ⟨_, bind_eq_ok.mpr ⟨names, ?_, bind_eq_ok.mpr ⟨all, hall, rfl⟩⟩⟩
    rw [hnames]
    rfl

/-- **What an interface inherits** is what it has. -/
theorem inherits_iff {own : OrderedMap Layout} {name : String} {names : List String}
    (hown : config.interfaces.traverse (readOwnFields catalog) = .ok own)
    (hclosed : (hierarchy config).Closed) (hname : name ∈ config.interfaces)
    (hnames : (hierarchy config).ancestry name = .ok names) :
    Inherits own names ∅ = config.HasField name := by
  funext field type
  have hnone : (∅ : Layout).get? field = none := rfl
  have hancestry : ∀ other, other ∈ names ↔
      ReflTransGen (hierarchy config).Extends name other := fun other =>
    Hierarchy.mem_ancestry_iff hnames hclosed (OrderedMap.mem_map_iff.mpr hname)
  simp only [Inherits, Config.HasField, hnone, reduceCtorEq, false_or, hancestry,
    OrderedMap.get?_traverse_iff hown, eq_iff_iff]
  refine exists_congr fun other => and_congr_right fun _ => ?_
  constructor
  · rintro ⟨layout, ⟨written, hwritten, hread⟩, hfield⟩
    obtain ⟨raw, hraw, hparse⟩ := (get?_readFields_iff h hread).mp hfield
    exact ⟨written, raw, hwritten, hraw, hparse⟩
  · rintro ⟨written, raw, hwritten, hraw, hparse⟩
    obtain ⟨layout, hread⟩ := OrderedMap.exists_traverse_iff.mp ⟨own, hown⟩ other written hwritten
    exact ⟨layout, ⟨written, hwritten, hread⟩,
      (get?_readFields_iff h hread).mpr ⟨raw, hraw, hparse⟩⟩

/-- Once the fields of all interfaces are read, each of them inherits on its own. -/
theorem exists_inherited_iff {own : OrderedMap Layout}
    (hown : config.interfaces.traverse (readOwnFields catalog) = .ok own)
    (hclosed : (hierarchy config).Closed) (hacyclic : (hierarchy config).Acyclic) :
    (∃ interfaces, config.interfaces.traverse (readInterface config own) = .ok interfaces) ↔
      ∀ name ∈ config.interfaces, Unambiguous (config.HasField name) := by
  have hone : ∀ name ∈ config.interfaces, ∀ written,
      (∃ interface, readInterface config own name written = .ok interface) ↔
        Unambiguous (config.HasField name) := by
    intro name hname written
    obtain ⟨names, hnames⟩ := Hierarchy.exists_ancestry hacyclic name
    rw [exists_readInterface_iff, ← inherits_iff h hown hclosed hname hnames]
    constructor
    · rintro ⟨found, hfound, hunambiguous⟩
      obtain rfl := Except.ok.inj (hnames.symm.trans hfound)
      exact hunambiguous
    · intro hunambiguous
      exact ⟨names, hnames, hunambiguous⟩
  rw [OrderedMap.exists_traverse_iff]
  constructor
  · intro hall name hname
    obtain ⟨written, hwritten⟩ := OrderedMap.exists_get?_of_mem hname
    exact (hone name hname written).mp (hall name written hwritten)
  · intro hall name written hwritten
    have hname := OrderedMap.mem_of_get? hwritten
    exact (hone name hname written).mpr (hall name hname)

/-- **The interfaces of a schema can be read** exactly if they extend interfaces without a circle,
their fields are of known types, and they agree with those that they extend. -/
theorem exists_readInterfaces_iff (hfree : ∀ name ∈ config.interfaces, ¬config.IsTypeName name) :
    (∃ interfaces, readInterfaces config catalog = .ok interfaces) ↔
      (∀ name written, config.interfaces.get? name = some written →
        ∀ interface ∈ written.extended, interface ∈ config.interfaces) ∧
      (hierarchy config).Acyclic ∧
      (∀ name written, config.interfaces.get? name = some written →
        ∀ field raw, written.fields.get? field = some raw → config.Mentions raw) ∧
      ∀ name ∈ config.interfaces, Unambiguous (config.HasField name) := by
  have hextended : (∀ entry ∈ config.interfaces.entries, checkInterfaceNames config
        (.extendsList entry.1) entry.2.extended = .ok ()) ↔
      ∀ name written, config.interfaces.get? name = some written →
        ∀ interface ∈ written.extended, interface ∈ config.interfaces := by
    simp only [checkInterfaceNames_eq_ok_iff, OrderedMap.get?_eq_some_iff, Prod.forall]
  have hfields : (∃ own, config.interfaces.traverse (readOwnFields catalog) = .ok own) ↔
      ∀ name written, config.interfaces.get? name = some written →
        ∀ field raw, written.fields.get? field = some raw → config.Mentions raw := by
    rw [OrderedMap.exists_traverse_iff]
    exact forall₃_congr fun name written _ => exists_readFields_iff h hfree
  simp only [readInterfaces_eq_ok_iff, hextended, exists_and_left, ← hfields]
  refine and_congr_right fun hdeclared => and_congr_right fun hacyclic => ?_
  have hclosed := closed_of_declared hdeclared
  constructor
  · rintro ⟨interfaces, own, hown, hread⟩
    exact ⟨⟨own, hown⟩, (exists_inherited_iff h hown hclosed hacyclic).mp ⟨interfaces, hread⟩⟩
  · rintro ⟨⟨own, hown⟩, hall⟩
    obtain ⟨interfaces, hread⟩ := (exists_inherited_iff h hown hclosed hacyclic).mpr hall
    exact ⟨interfaces, own, hown, hread⟩

end Resolved

/-! ### All sections -/

/-- **Exactly the well-formed schemas have a definition.** -/
theorem exists_ofConfig_iff :
    (∃ definition, ofConfig config = .ok definition) ↔ config.WellFormed := by
  simp only [ofConfig_eq_ok_iff]
  constructor
  · rintro ⟨definition, h⟩
    have hlists := Catalog.lists_of_ofConfig h.catalog
    obtain ⟨hnames, hfree⟩ := Catalog.exists_ofConfig_iff.mp ⟨_, h.catalog⟩
    have hbase := (exists_baseTypes_iff hlists hfree).mp ⟨_, h.baseTypes⟩
    obtain ⟨hextended, hacyclic, hfields, hsame⟩ :=
      (exists_readInterfaces_iff hlists hfree).mp ⟨_, h.interfaces⟩
    exact {
      typeName := hnames.isName
      distinct := hnames.nodup
      notNative := fun name hname type htype => by
        have hnone := hnames.free name hname
        rw [Catalog.category?_natives_iff.mpr ⟨type, htype, rfl⟩] at hnone
        cases hnone
      interfaceName := hfree
      baseField := fun name written hget => (hbase name written hget).1
      interfaceField := hfields
      implemented := fun name written hget => (hbase name written hget).2
      extended := hextended
      member := (exists_superTypes_iff hlists).mp ⟨_, h.superTypes⟩
      acyclic := hacyclic
      consistent := fun name hname first second hfirst hsecond field type type' htype htype' =>
        hsame name hname field type type' ⟨first, hfirst, htype⟩ ⟨second, hsecond, htype'⟩
      custom := exists_customTypes_iff.mp ⟨_, h.customTypes⟩
      transformation := fun name written hget step hstep =>
        exists_readStep_iff.mp
          (exists_versions_iff.mp ⟨_, h.versions⟩ name written hget step hstep) }
  · intro hw
    have hfree := hw.interfaceName
    have hnames : Catalog.natives.Free config.typeNames := by
      refine ⟨hw.typeName, hw.distinct, fun name hname => ?_⟩
      refine Option.eq_none_iff_forall_ne_some.mpr fun category hcategory => ?_
      obtain ⟨type, htype, -⟩ := Catalog.category?_natives_iff.mp hcategory
      exact hw.notNative name hname type htype
    obtain ⟨catalog, hcatalog⟩ := Catalog.exists_ofConfig_iff.mpr ⟨hnames, hfree⟩
    have hlists := Catalog.lists_of_ofConfig hcatalog
    obtain ⟨baseTypes, hbase⟩ := (exists_baseTypes_iff hlists hfree).mpr fun name written hget =>
      ⟨hw.baseField name written hget, hw.implemented name written hget⟩
    obtain ⟨superTypes, hsuper⟩ := (exists_superTypes_iff hlists).mpr hw.member
    obtain ⟨customTypes, hcustom⟩ := exists_customTypes_iff.mpr hw.custom
    obtain ⟨interfaces, hinterfaces⟩ := (exists_readInterfaces_iff hlists hfree).mpr
      ⟨hw.extended, hw.acyclic, hw.interfaceField, fun name hname field type type' => by
        rintro ⟨first, hfirst, htype⟩ ⟨second, hsecond, htype'⟩
        exact hw.consistent name hname first second hfirst hsecond field type type' htype htype'⟩
    obtain ⟨versions, hversions⟩ := exists_versions_iff.mpr fun name written hget step hstep =>
      exists_readStep_iff.mpr (hw.transformation name written hget step hstep)
    exact ⟨⟨config.currentVersion, catalog, interfaces, baseTypes, superTypes, customTypes,
      versions⟩, rfl, hcatalog, hbase, hsuper, hcustom, hinterfaces, hversions⟩

/-- **Exactly the well-formed schemas are resolved.** The catalog of a definition maps the native
and the declared types to their categories and knows no other name, and the fields of a base type
are those that are declared, in the same order and with their types read. -/
theorem ofConfig_exact (config : Config) :
    ((∃ definition, ofConfig config = .ok definition) ↔ config.WellFormed) ∧
    ∀ definition, ofConfig config = .ok definition →
      (∀ name category, definition.catalog.category? name = some category ↔
        (∃ type : NativeType, type.name = name ∧ category = .native type) ∨
          (category = .base ∧ name ∈ config.baseTypes) ∨
          (category = .super ∧ name ∈ config.superTypes) ∨
          (category = .custom ∧ name ∈ config.customTypes)) ∧
      definition.baseTypes.keys = config.baseTypes.keys ∧
      ∀ name type, definition.baseTypes.get? name = some type →
        ∃ written, config.baseTypes.get? name = some written ∧
          List.Forall₂ (fun entry field => entry.1 = field.1 ∧
            TypeRef.parse entry.2 = .ok field.2) written.fields.entries type.fields.entries := by
  refine ⟨exists_ofConfig_iff, fun definition hdefinition => ?_⟩
  have h := ofConfig_eq_ok_iff.mp hdefinition
  have hlists := Catalog.lists_of_ofConfig h.catalog
  refine ⟨fun name category => ?_, OrderedMap.keys_of_traverse h.baseTypes,
    fun name type hget => ?_⟩
  · rw [hlists name category, Catalog.category?_natives_iff]
    rfl
  · obtain ⟨written, hwritten, hread⟩ := OrderedMap.get?_of_traverse h.baseTypes hget
    obtain ⟨fields, hfields, hread⟩ := bind_eq_ok.mp hread
    obtain ⟨⟨⟩, -, hread⟩ := bind_eq_ok.mp hread
    obtain rfl := Except.ok.inj hread
    refine ⟨written, hwritten, (OrderedMap.traverse_eq_ok_iff.mp hfields).imp ?_⟩
    rintro entry field ⟨hname, hfield⟩
    exact ⟨hname, ((readField_eq_ok_iff hlists).mp hfield).1⟩

end Definition

/-- A schema with an interface that extends two others, of which one extends the other. -/
def Config.diamond : Config where
  currentVersion := "1"
  interfaces := .ofList [("Id", { fields := .ofList [("id", "int[]")] }),
    ("Key", { extended := ["Id"], fields := .ofList [("id", "§int")] }),
    ("Row", { extended := ["Key", "Id"], fields := .ofList [("on", "-Day")] })]
  baseTypes := .ofList [("A", {
    implemented := ["Row"]
    fields := .ofList [("id", "int[]"), ("on", "-Day")] })]
  superTypes := .ofList [("S", ["A"])]
  customTypes := .ofList [("Day", { representation := "Day", serializer := "Day#IO" })]
  versions := .ofList [("1", {})]

set_option maxRecDepth 20000 in
theorem Definition.isSome_diamond : (ofConfig Config.diamond).toOption.isSome = true := by
  cbv

theorem Definition.ofConfig_exact_diamond : Config.diamond.WellFormed ∧
    ∃ definition, ofConfig Config.diamond = .ok definition ∧
      definition.catalog.category? "Day" = some .custom ∧
        definition.catalog.category? "Row" = none ∧ definition.baseTypes.keys = ["A"] := by
  obtain ⟨hiff, hcontents⟩ := ofConfig_exact Config.diamond
  have hsome := isSome_diamond
  cases hdefinition : ofConfig Config.diamond with
  | error e =>
    rw [hdefinition] at hsome
    cases hsome
  | ok definition =>
    obtain ⟨hcatalog, hkeys, -⟩ := hcontents definition hdefinition
    refine ⟨hiff.mp ⟨definition, hdefinition⟩, definition, rfl, ?_, ?_, hkeys⟩
    · exact (hcatalog "Day" .custom).mpr (.inr (.inr (.inr ⟨rfl, by decide⟩)))
    · refine Option.eq_none_iff_forall_ne_some.mpr fun category hcategory => ?_
      rcases (hcatalog "Row" category).mp hcategory with ⟨type, htype, -⟩ | h | h | h
      · cases type <;> revert htype <;> decide
      · exact absurd h.2 (by decide)
      · exact absurd h.2 (by decide)
      · exact absurd h.2 (by decide)

end SchemaEvolution

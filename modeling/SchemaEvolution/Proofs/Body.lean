import SchemaEvolution.Proofs.Blueprint
import SchemaEvolution.Proofs.Index

/-!
# What the node of a name says

The body of a node is read off the blueprint: the layout at the version, the members of the super
type or the wrapped type, each with the node that the version has for it. It depends on the index
through the nodes of the names that it refers to, and through nothing else.

## Main definitions

* `NodeKind.targets`: the nodes that a body refers to
* `NodeField.Matches`, `Member.Matches`: a field or a member of a node as the schema has it
* `Blueprint.Describes`: the body that the schema gives a name at a version

## Main results

* `Blueprint.body_eq_ok_iff`: the computed body is the one that the schema gives
* `Blueprint.Describes.mono`: the body stays when layout and direct targets do
* `Replayed.mem_targets_iff`: the direct targets are the nodes of the referenced names
* `Replayed.Sound.exists_describes`: there is a body once all direct targets have a node
-/

namespace SchemaEvolution

/-- The nodes that a body refers to. -/
def NodeKind.targets : NodeKind → List NodeId
  | .base fields => fields.map NodeField.target
  | .super members => members.map Member.target
  | .custom .. | .native _ => []
  | .nullable wrapped | .array wrapped => [wrapped]

variable {target target' : String → Option NodeId}

/-- A field of a record node has name, type and node of an entry of the layout. -/
structure NodeField.Matches (target : String → Option NodeId) (entry : String × TypeRef)
    (field : NodeField) : Prop where
  name : field.name = entry.1
  type : field.type = entry.2
  target : target entry.2.canonical = some field.target

/-- A member of a union node has the name, the place and the node of a declared member. -/
structure Member.Matches (target : String → Option NodeId) (entry : String × Nat)
    (member : Member) : Prop where
  name : member.name = entry.1
  discriminant : member.discriminant = UInt32.ofNat entry.2
  target : target entry.1 = some member.target

namespace Blueprint

/-- **The body that the schema gives a name at a version**, where `target` is the node of each
name at that version. -/
inductive Describes (blueprint : Blueprint) (target : String → Option NodeId) (version : Nat)
    (name : String) : NodeKind → Prop
  | base {layout : Layout} {fields : List NodeField}
      (hentry : blueprint.entries.get? name = some (.declared .base))
      (hlayout : blueprint.history.layout? version name = some layout)
      (hfields : List.Forall₂ (NodeField.Matches target) layout.entries fields) :
      Describes blueprint target version name (.base fields)
  | super {members : List Member}
      (hentry : blueprint.entries.get? name = some (.declared .super))
      (hmembers : List.Forall₂ (Member.Matches target)
        ((blueprint.definition.superTypes.get? name).getD []).zipIdx members) :
      Describes blueprint target version name (.super members)
  | custom {custom : CustomType}
      (hentry : blueprint.entries.get? name = some (.declared .custom))
      (hcustom : blueprint.definition.customTypes.get? name = some custom) :
      Describes blueprint target version name (.custom custom.representation custom.serializer)
  | native {type : NativeType}
      (hentry : blueprint.entries.get? name = some (.declared (.native type))) :
      Describes blueprint target version name (.native type)
  | nullable {wrapped : String} {id : NodeId}
      (hentry : blueprint.entries.get? name = some (.wrapper ⟨wrapped, .nullable⟩))
      (hwrapped : target wrapped = some id) :
      Describes blueprint target version name (.nullable id)
  | array {wrapped : String} {id : NodeId}
      (hentry : blueprint.entries.get? name = some (.wrapper ⟨wrapped, .array⟩))
      (hwrapped : target wrapped = some id) :
      Describes blueprint target version name (.array id)

variable {blueprint : Blueprint} {index : Index} {version : Nat} {name : String} {kind : NodeKind}

/-! ## The computed body -/

theorem field_eq_ok_iff {entry : String × TypeRef} {field : NodeField} :
    Blueprint.field index version entry = .ok field ↔
      field.Matches (index.node? · version) entry := by
  unfold Blueprint.field
  rw [bind_eq_ok]
  constructor
  · rintro ⟨id, hid, h⟩
    obtain rfl := Except.ok.inj h
    exact ⟨rfl, rfl, Index.resolve_eq_ok_iff.mp hid⟩
  · intro h
    obtain ⟨name, type⟩ := entry
    obtain ⟨name', type', id⟩ := field
    obtain rfl : name' = name := h.name
    obtain rfl : type' = type := h.type
    exact ⟨id, Index.resolve_eq_ok_iff.mpr h.target, rfl⟩

theorem membersFrom_eq_ok_iff {place : Nat} {names : List String} {members : List Member} :
    membersFrom index version place names = .ok members ↔
      List.Forall₂ (Member.Matches (index.node? · version)) (names.zipIdx place) members := by
  induction names generalizing place members with
  | nil =>
    rw [List.zipIdx_nil, List.forall₂_nil_left_iff]
    exact ⟨fun h => (Except.ok.inj h).symm, fun h => h ▸ rfl⟩
  | cons first rest ih =>
    unfold membersFrom
    rw [bind_eq_ok, List.zipIdx_cons, List.forall₂_cons_left_iff]
    constructor
    · rintro ⟨id, hid, h⟩
      obtain ⟨later, hlater, h⟩ := bind_eq_ok.mp h
      obtain rfl := Except.ok.inj h
      exact ⟨_, later, ⟨rfl, rfl, Index.resolve_eq_ok_iff.mp hid⟩, ih.mp hlater, rfl⟩
    · rintro ⟨⟨discriminant, name, id⟩, later, hfirst, hlater, rfl⟩
      obtain rfl : name = first := hfirst.name
      obtain rfl : discriminant = UInt32.ofNat place := hfirst.discriminant
      exact ⟨id, Index.resolve_eq_ok_iff.mpr hfirst.target,
        bind_eq_ok.mpr ⟨later, ih.mpr hlater, rfl⟩⟩

/-- **The computed body** is the one that the schema gives. -/
theorem body_eq_ok_iff :
    blueprint.body index version name = .ok kind ↔
      blueprint.Describes (index.node? · version) version name kind := by
  constructor
  · intro h
    unfold body at h
    split at h
    · rename_i hentry
      split at h
      · cases h
      · rename_i layout hlayout
        obtain ⟨fields, hfields, h⟩ := bind_eq_ok.mp h
        obtain rfl := Except.ok.inj h
        exact .base hentry hlayout
          ((mapM_eq_ok_iff.mp hfields).imp fun _ _ hfield => field_eq_ok_iff.mp hfield)
    · rename_i hentry
      obtain ⟨members, hmembers, h⟩ := bind_eq_ok.mp h
      obtain rfl := Except.ok.inj h
      exact .super hentry (membersFrom_eq_ok_iff.mp hmembers)
    · rename_i hentry
      split at h
      · rename_i custom hcustom
        obtain rfl := Except.ok.inj h
        exact .custom hentry hcustom
      · cases h
    · rename_i type hentry
      obtain rfl := Except.ok.inj h
      exact .native hentry
    · rename_i ref hentry
      obtain ⟨wrapped, modifier⟩ := ref
      obtain ⟨id, hid, h⟩ := bind_eq_ok.mp h
      have hid := Index.resolve_eq_ok_iff.mp hid
      cases modifier with
      | plain => cases h
      | nullable => exact Except.ok.inj h ▸ .nullable hentry hid
      | array => exact Except.ok.inj h ▸ .array hentry hid
    · cases h
  · intro h
    unfold body
    cases h with
    | base hentry hlayout hfields =>
      rw [hentry]
      dsimp only
      rw [hlayout]
      have hmapM := mapM_eq_ok_iff.mpr (hfields.imp fun _ _ hfield => field_eq_ok_iff.mpr hfield)
      exact bind_eq_ok.mpr ⟨_, hmapM, rfl⟩
    | super hentry hmembers =>
      rw [hentry]
      exact bind_eq_ok.mpr ⟨_, membersFrom_eq_ok_iff.mpr hmembers, rfl⟩
    | custom hentry hcustom =>
      rw [hentry]
      dsimp only
      rw [hcustom]
    | native hentry => rw [hentry]
    | nullable hentry hwrapped =>
      rw [hentry]
      exact bind_eq_ok.mpr ⟨_, Index.resolve_eq_ok_iff.mpr hwrapped, rfl⟩
    | array hentry hwrapped =>
      rw [hentry]
      exact bind_eq_ok.mpr ⟨_, Index.resolve_eq_ok_iff.mpr hwrapped, rfl⟩

/-! ## Bodies that stay -/

/-- **The body stays when the layout and the nodes of the direct targets stay.** -/
theorem Describes.mono {version' : Nat} (h : blueprint.Describes target version name kind)
    (hlayout : blueprint.history.layout? version' name = blueprint.history.layout? version name)
    (htarget : ∀ other ∈ blueprint.referencesAt version name, target' other = target other) :
    blueprint.Describes target' version' name kind := by
  cases h with
  | @base layout fields hentry hget hfields =>
    have hrefers : ∀ entry ∈ layout.entries,
        target' entry.2.canonical = target entry.2.canonical := by
      intro entry hmem
      apply htarget
      rw [referencesAt_of_entry hentry, references, hget]
      exact mem_dedup.mpr (List.mem_map_of_mem (List.mem_map_of_mem hmem))
    refine .base hentry (hlayout.trans hget) ?_
    refine ((List.forall₂_and_left _ _).mpr ⟨hrefers, hfields⟩).imp ?_
    rintro entry field ⟨hsame, hfield⟩
    exact ⟨hfield.name, hfield.type, hsame.trans hfield.target⟩
  | super hentry hmembers =>
    have hrefers : ∀ entry ∈ ((blueprint.definition.superTypes.get? name).getD []).zipIdx,
        target' entry.1 = target entry.1 := by
      intro entry hmem
      apply htarget
      rw [referencesAt_of_entry hentry]
      exact List.fst_mem_of_mem_zipIdx hmem
    refine .super hentry ?_
    refine ((List.forall₂_and_left _ _).mpr ⟨hrefers, hmembers⟩).imp ?_
    rintro entry member ⟨hsame, hmember⟩
    exact ⟨hmember.name, hmember.discriminant, hsame.trans hmember.target⟩
  | custom hentry hcustom => exact .custom hentry hcustom
  | native hentry => exact .native hentry
  | nullable hentry hwrapped =>
    refine .nullable hentry ((htarget _ ?_).trans hwrapped)
    rw [referencesAt_of_entry hentry]
    exact List.mem_singleton_self _
  | array hentry hwrapped =>
    refine .array hentry ((htarget _ ?_).trans hwrapped)
    rw [referencesAt_of_entry hentry]
    exact List.mem_singleton_self _

end Blueprint

/-- **The targets of a body are the nodes of the names that its name refers to.** -/
theorem Replayed.mem_targets_iff {replayed : Replayed} {v : Nat} {name : String}
    {kind : NodeKind} {id : NodeId} (h : replayed.blueprint.Describes target v name kind) :
    id ∈ kind.targets ↔
      ∃ other ∈ replayed.blueprint.referencesAt v name, target other = some id := by
  cases h with
  | @base layout fields hentry hlayout hfields =>
    have hbase := entry_declared_iff.mp hentry
    rw [NodeKind.targets, List.mem_map]
    constructor
    · rintro ⟨field, hfield, rfl⟩
      obtain ⟨entry, hmem, hmatches⟩ := exists_left_of_forall₂ hfields hfield
      refine ⟨_, ?_, hmatches.target⟩
      exact (mem_referencesAt_base hbase hlayout).mpr ⟨entry.2, List.mem_map_of_mem hmem, rfl⟩
    · rintro ⟨other, hother, hid⟩
      obtain ⟨ref, href, rfl⟩ := (mem_referencesAt_base hbase hlayout).mp hother
      obtain ⟨entry, hmem, rfl⟩ := List.mem_map.mp href
      obtain ⟨field, hfield, hmatches⟩ := exists_right_of_forall₂ hfields hmem
      exact ⟨field, hfield, Option.some.inj (hmatches.target.symm.trans hid)⟩
  | @super members hentry hmembers =>
    rw [referencesAt_super (entry_declared_iff.mp hentry), NodeKind.targets, List.mem_map]
    constructor
    · rintro ⟨member, hmember, rfl⟩
      obtain ⟨entry, hmem, hmatches⟩ := exists_left_of_forall₂ hmembers hmember
      exact ⟨entry.1, List.fst_mem_of_mem_zipIdx hmem, hmatches.target⟩
    · rintro ⟨other, hother, hid⟩
      obtain ⟨place, hplace⟩ := List.mem_iff_getElem?.mp hother
      obtain ⟨member, hmember, hmatches⟩ :=
        exists_right_of_forall₂ hmembers (List.mk_mem_zipIdx_iff_getElem?.mpr hplace)
      exact ⟨member, hmember, Option.some.inj (hmatches.target.symm.trans hid)⟩
  | custom hentry hcustom =>
    rw [Blueprint.referencesAt_of_entry hentry]
    exact iff_of_false nofun nofun
  | native hentry =>
    rw [Blueprint.referencesAt_of_entry hentry]
    exact iff_of_false nofun nofun
  | nullable hentry hwrapped =>
    rw [Blueprint.referencesAt_of_entry hentry]
    simp [NodeKind.targets, Blueprint.references, hwrapped, eq_comm]
  | array hentry hwrapped =>
    rw [Blueprint.referencesAt_of_entry hentry]
    simp [NodeKind.targets, Blueprint.references, hwrapped, eq_comm]

/-- Only base types have record nodes. -/
theorem Replayed.base_of_describes {replayed : Replayed} {v : Nat} {name : String}
    {fields : List NodeField} (h : replayed.blueprint.Describes target v name (.base fields)) :
    replayed.definition.catalog.category? name = some .base := by
  cases h with
  | base hentry => exact entry_declared_iff.mp hentry

theorem Replayed.super_of_describes {replayed : Replayed} {v : Nat} {name : String}
    {members : List Member} (h : replayed.blueprint.Describes target v name (.super members)) :
    replayed.definition.catalog.category? name = some .super := by
  cases h with
  | super hentry => exact entry_declared_iff.mp hentry

/-- **There is a body** once all direct targets have a node. -/
theorem Replayed.Sound.exists_describes {replayed : Replayed} (hr : replayed.Sound) {v : Nat}
    (hv : v < replayed.chain.size) {name : String} (hname : name ∈ replayed.blueprint.names)
    (htarget : ∀ other ∈ replayed.blueprint.referencesAt v name, ∃ id, target other = some id) :
    ∃ kind, replayed.blueprint.Describes target v name kind := by
  rw [Blueprint.mem_names_iff] at hname
  obtain ⟨entry, hentry⟩ := Option.isSome_iff_exists.mp hname
  rw [Blueprint.referencesAt_of_entry hentry] at htarget
  cases entry with
  | wrapper ref =>
    obtain ⟨-, hwrapped, -⟩ := hr.entry_wrapper_iff.mp hentry
    obtain ⟨wrapped, modifier⟩ := ref
    obtain ⟨id, hid⟩ := htarget wrapped (List.mem_singleton_self _)
    cases modifier with
    | plain => cases hwrapped
    | nullable => exact ⟨_, .nullable hentry hid⟩
    | array => exact ⟨_, .array hentry hid⟩
  | declared category =>
    have hcategory := entry_declared_iff.mp hentry
    cases category with
    | base =>
      obtain ⟨layout, hlayout⟩ := hr.exists_layout hv hcategory
      have hget : replayed.blueprint.history.layout? v name = some layout := hlayout
      rw [Blueprint.references, hget] at htarget
      have hfield : ∀ entry ∈ layout.entries, ∃ field, NodeField.Matches target entry field := by
        intro entry hmem
        obtain ⟨id, hid⟩ := htarget _
          (Blueprint.mem_dedup.mpr (List.mem_map_of_mem (List.mem_map_of_mem hmem)))
        exact ⟨⟨entry.1, entry.2, id⟩, rfl, rfl, hid⟩
      obtain ⟨fields, hfields⟩ := exists_forall₂ hfield
      exact ⟨_, .base hentry hlayout hfields⟩
    | super =>
      have hmember : ∀ entry ∈
          ((replayed.blueprint.definition.superTypes.get? name).getD []).zipIdx,
          ∃ member, Member.Matches target entry member := by
        intro entry hmem
        obtain ⟨id, hid⟩ := htarget entry.1 (List.fst_mem_of_mem_zipIdx hmem)
        exact ⟨⟨UInt32.ofNat entry.2, entry.1, id⟩, rfl, rfl, hid⟩
      obtain ⟨members, hmembers⟩ := exists_forall₂ hmember
      exact ⟨_, .super hentry hmembers⟩
    | custom =>
      obtain ⟨custom, hcustom⟩ := OrderedMap.exists_get?_of_mem (hr.definition.custom.mp hcategory)
      exact ⟨_, .custom hentry hcustom⟩
    | native type => exact ⟨_, .native hentry⟩

end SchemaEvolution

import SchemaEvolution.Config.Encode
import SchemaEvolution.Config.Decode
import SchemaEvolution.Proofs.JsonReading
import SchemaEvolution.Proofs.Maps

/-!
# Schemas are decoded as they were encoded

A schema is encoded record by record, each with all of its fields in the order of their declaration.
Decoding such a record enters the values of its fields in turn, whatever the record started with, so
it is enough that each value is decoded again. A map gets its entries back in their order because no
name in it occurs twice; a transformation is told its kind first and then is a record like the
others.

## Main definitions

* `Config.Fits`: the indices in a schema fit in 64 bits

## Main results

* `Shape.fromMembers_all`: a record with all of its fields is decoded field by field
* `Decoder.mapping_reading`: a map is decoded with its entries in order
* `Decoder.transformation_tagged`: a transformation that begins with its kind
* `Config.ofText_json`: a schema is decoded as it was encoded
-/

namespace SchemaEvolution

universe u

open Json (Readable)

/-! ## Values -/

namespace Decoder

variable {α : Type u} {decoder : Decoder α} {item : α → Json}

/-- **A list is decoded again** if its items are. -/
theorem list_reading {xs : List α} (h : ∀ x ∈ xs, decoder (item x).reading = .ok x) :
    list decoder (Json.array (xs.map item)).reading = .ok xs := by
  rw [Json.reading_array, list]
  induction xs with
  | nil => rfl
  | cons x xs ih =>
    obtain ⟨hx, hxs⟩ := List.forall_mem_cons.mp h
    rw [List.map_cons, List.map_cons, items, hx, ok_bind, ih hxs]
    rfl

/-- Members are entered into a map one by one. -/
theorem members_reading {entries : List (String × α)}
    (h : ∀ entry ∈ entries, decoder (item entry.2).reading = .ok entry.2) (start : OrderedMap α) :
    members decoder true (entries.map fun entry => (entry.1, (item entry.2).reading)) start =
      .ok (entries.foldl (fun map entry => map.insert entry.1 entry.2) start) := by
  induction entries generalizing start with
  | nil => rfl
  | cons entry entries ih =>
    obtain ⟨hentry, hentries⟩ := List.forall_mem_cons.mp h
    rw [List.map_cons, members, hentry, ok_bind, ih hentries]
    rfl

/-- **A map is decoded again** if its values are, with its entries in order. -/
theorem mapping_reading {map : OrderedMap α}
    (h : ∀ value ∈ map.values, decoder (item value).reading = .ok value) :
    mapping decoder (map.json item).reading = .ok map := by
  have hentries := members_reading (fun entry hentry => h _ (List.mem_map_of_mem hentry)) ∅
  have hagain : OrderedMap.ofList map.entries = map :=
    OrderedMap.ext (OrderedMap.entries_ofList map.distinct)
  rw [OrderedMap.json, Json.reading_object, List.map_map]
  exact hentries.trans (congrArg Except.ok hagain)

theorem text_reading (value : String) : text (Json.text value).reading = .ok value := rfl

theorem texts_reading (values : List String) :
    list text (Json.texts values).reading = .ok values :=
  list_reading fun _ _ => rfl

theorem ofText?_reading (value : Option String) :
    optional text (Json.ofText? value).reading = .ok value := by
  cases value <;> rfl

theorem ofNumber?_reading {number : Option Nat}
    (h : ∀ value ∈ number, Word.fits 64 value = true) :
    optional place (Json.ofNumber? number).reading = .ok number := by
  cases number with
  | none => rfl
  | some value =>
    have hplace : place (.integer value) = .ok value := if_pos (by simp [h value rfl])
    exact congrArg (Except.map some) hplace

end Decoder

/-! ## Records -/

theorem Field.store_of {α : Type u} {β : Type} {name : String} {required : Bool}
    {decoder : Decoder β} {set : β → α → α} {reading : Reading} {value : β} {record : α}
    (h : decoder reading = .ok value) :
    (Field.of name required decoder set).store reading record = .ok (set value record) :=
  congrArg (Except.map (set · record)) h

/-- **A member for each field, in order**: what a record becomes when their values are entered one
by one. -/
inductive Shape.Enters {α : Type u} :
    List (Field α) → List (String × Reading) → (before after : α) → Prop
  | nil (record : α) : Enters [] [] record record
  | cons {field : Field α} {fields : List (Field α)} {reading : Reading}
      {members : List (String × Reading)} {before next after : α}
      (hvalue : field.store reading before = .ok next) (hrest : Enters fields members next after) :
      Enters (field :: fields) ((field.name, reading) :: members) before after

/-- Members are entered behind others; the fields in front are those seen so far. -/
theorem Shape.fromMembers_rest {α : Type u} {shape : Shape α} {done rest : List (Field α)}
    {members : List (String × Reading)} {seen : List String} {before after : α}
    (hd : shape.names.Nodup) (h : Enters rest members before after)
    (hfields : shape.fields = done ++ rest)
    (hseen : ∀ name, name ∈ seen ↔ name ∈ done.map Field.name) :
    shape.fromMembers true members seen before = .ok after := by
  induction h generalizing done seen with
  | nil record =>
    have hmissing : shape.firstMissing? seen = none := by
      rw [firstMissing?, Option.map_eq_none_iff, List.find?_eq_none]
      intro field hfield
      rw [hfields, List.append_nil] at hfield
      simp [(hseen _).mpr (List.mem_map_of_mem hfield)]
    rw [fromMembers, hmissing]
    rfl
  | cons hvalue _ ih =>
    rename_i field rest reading members before next after _
    rw [names, hfields, List.map_append, List.map_cons] at hd
    have hfresh : ∀ other ∈ done, other.name ≠ field.name := fun other hother heq =>
      (List.nodup_append.mp hd).2.2 _ (List.mem_map_of_mem hother) _ List.mem_cons_self heq
    have hfind : (shape.fields.find? fun other => other.name == field.name) = some field := by
      have hdone : (done.find? fun other => other.name == field.name) = none :=
        List.find?_eq_none.mpr fun other hother => by simpa using hfresh other hother
      rw [hfields, List.find?_append, hdone, Option.none_or]
      exact List.find?_cons_of_pos (beq_self_eq_true field.name)
    have hunseen : seen.contains field.name = false := by
      refine Bool.eq_false_iff.mpr fun hcontains => ?_
      obtain ⟨other, hother, heq⟩ :=
        List.mem_map.mp ((hseen _).mp (List.contains_iff_mem.mp hcontains))
      exact hfresh other hother heq
    rw [fromMembers, hfind]
    dsimp only
    rw [if_neg (by rw [hunseen]; nofun), hvalue]
    have hnext : shape.fields = done ++ [field] ++ rest := by simp [hfields]
    refine ih hnext fun name => ?_
    rw [List.mem_cons, hseen, List.map_append, List.mem_append, or_comm]
    simp

/-- **A record with all of its fields**, in the order of their declaration, is decoded field by
field. -/
theorem Shape.fromMembers_all {α : Type u} {shape : Shape α} {members : List (String × Reading)}
    {blank record : α} (hd : shape.names.Nodup) (h : Enters shape.fields members blank record) :
    Decoder.record shape blank (.table members true) = .ok record := by
  have hfields : shape.fields = [] ++ shape.fields := rfl
  exact fromMembers_rest hd h hfields fun name => by simp

/-! ## Transformations -/

namespace Decoder

/-- What follows the kind of a transformation is kept as it is. -/
theorem splitKind_of_found {members : List (String × Reading)}
    (h : ∀ member ∈ members, member.1 ≠ kindField ∧ member.2.isWhole = true) (found : ChangeKind) :
    splitKind true members (some found) = .ok (found, members) := by
  induction members with
  | nil => rfl
  | cons member members ih =>
    obtain ⟨name, reading⟩ := member
    obtain ⟨⟨hname, hwhole⟩, hmembers⟩ := List.forall_mem_cons.mp h
    rw [splitKind, if_neg hname, if_neg (by simp [hwhole]), ih hmembers]
    rfl

/-- **A transformation that begins with its kind** is decoded as the record of that kind. -/
theorem transformation_tagged {members : List (String × Reading)}
    (h : ∀ member ∈ members, member.1 ≠ kindField ∧ member.2.isWhole = true) (found : ChangeKind) :
    transformation (.table ((kindField, .text found.word) :: members) true) =
      (record (variantShape found) {} (.table members true)).map (·.step found) := by
  have hkind : kind (.text found.word) = .ok found := by cases found <;> rfl
  rw [transformation, splitKind, if_pos rfl]
  simp only [Option.isSome_none, Bool.false_eq_true, if_false, hkind]
  rw [splitKind_of_found h]
  rfl

end Decoder

/-- The place that a change gives a field, if it gives one. -/
def FieldChange.index? {τ κ : Type} : FieldChange τ κ → Option Nat
  | move _ _ index | insert _ _ _ _ index => index
  | remove _ | convert .. => none

/-- The place in a transformation fits in 64 bits. -/
def Transformation.Fits (step : StepConfig) : Prop :=
  ∀ index ∈ step.change.index?, Word.fits 64 index = true

/-! ## What is encoded is read -/

section Readable

variable {depth : Nat}

theorem readable_texts (values : List String) : Readable (depth + 1) (Json.texts values) :=
  .array (List.forall_mem_map.mpr fun value _ => .text value)

theorem readable_ofText? (value : Option String) : Readable depth (Json.ofText? value) := by
  cases value with
  | none => exact .null
  | some value => exact .text value

theorem readable_ofNumber? {number : Option Nat}
    (h : ∀ value ∈ number, Word.fits 64 value = true) : Readable depth (Json.ofNumber? number) := by
  cases number with
  | none => exact .null
  | some value => exact .number (h value rfl)

theorem OrderedMap.readable_json {α : Type u} {item : α → Json} {map : OrderedMap α}
    (h : ∀ value ∈ map.values, Readable depth (item value)) :
    Readable (depth + 1) (map.json item) :=
  .object (List.forall_mem_map.mpr fun _ hentry => h _ (List.mem_map_of_mem hentry))

theorem Transformation.readable_members {step : StepConfig} (h : step.Fits) :
    ∀ member ∈ ("type", Json.text step.type) :: step.change.jsonMembers,
      member.1 ≠ Decoder.kindField ∧ Readable (depth + 1) member.2 := by
  obtain ⟨type, change⟩ := step
  have htype : ∀ value, Readable (depth + 1) (Json.text value) := .text
  cases change with
  | move source target index =>
    simp only [FieldChange.jsonMembers, List.forall_mem_cons]
    exact ⟨⟨by decide, htype _⟩, ⟨by decide, htype _⟩, ⟨by decide, htype _⟩,
      ⟨by decide, readable_ofNumber? h⟩, List.forall_mem_nil _⟩
  | insert field type initializer context index =>
    simp only [FieldChange.jsonMembers, List.forall_mem_cons]
    exact ⟨⟨by decide, htype _⟩, ⟨by decide, htype _⟩, ⟨by decide, htype _⟩, ⟨by decide, htype _⟩,
      ⟨by decide, readable_texts _⟩, ⟨by decide, readable_ofNumber? h⟩, List.forall_mem_nil _⟩
  | remove field =>
    simp only [FieldChange.jsonMembers, List.forall_mem_cons]
    exact ⟨⟨by decide, htype _⟩, ⟨by decide, htype _⟩, List.forall_mem_nil _⟩
  | convert field type converter context =>
    simp only [FieldChange.jsonMembers, List.forall_mem_cons]
    exact ⟨⟨by decide, htype _⟩, ⟨by decide, htype _⟩, ⟨by decide, htype _⟩, ⟨by decide, htype _⟩,
      ⟨by decide, readable_texts _⟩, List.forall_mem_nil _⟩

theorem Transformation.readable_json {step : StepConfig} (h : step.Fits) :
    Readable (depth + 2) step.json :=
  .object (List.forall_mem_cons.mpr
    ⟨.text _, fun member hmember => (readable_members h member hmember).2⟩)

end Readable

namespace Decoder

theorem nodup_variantShape (kind : ChangeKind) : (variantShape kind).names.Nodup := by
  cases kind <;> decide

/-- **A transformation is decoded again.** -/
theorem transformation_reading {step : StepConfig} (h : step.Fits) :
    transformation step.json.reading = .ok step := by
  have hmembers := @Transformation.readable_members 0 step h
  have htagged := @transformation_tagged
    ((("type", Json.text step.type) :: step.change.jsonMembers).map
      fun member => (member.1, member.2.reading))
    (List.forall_mem_map.mpr fun member hmember =>
      ⟨(hmembers member hmember).1, Json.isWhole_reading (hmembers member hmember).2⟩)
    step.change.kind
  rw [Transformation.json, Json.reading_object, List.map_cons]
  refine htagged.trans ?_
  obtain ⟨type, change⟩ := step
  cases change with
  | move source target index =>
    have hrecord : record (variantShape .move) {} (.table _ true) = .ok _ :=
      Shape.fromMembers_all (nodup_variantShape .move) <|
      .cons (Field.store_of (text_reading type)) <|
      .cons (Field.store_of (text_reading source)) <|
      .cons (Field.store_of (text_reading target)) <|
      .cons (Field.store_of (ofNumber?_reading h)) <|
      .nil _
    exact congrArg (Except.map fun draft => draft.step .move) hrecord
  | insert field fieldType initializer context index =>
    have hrecord : record (variantShape .insert) {} (.table _ true) = .ok _ :=
      Shape.fromMembers_all (nodup_variantShape .insert) <|
      .cons (Field.store_of (text_reading type)) <|
      .cons (Field.store_of (text_reading field)) <|
      .cons (Field.store_of (text_reading fieldType)) <|
      .cons (Field.store_of (text_reading initializer)) <|
      .cons (Field.store_of (texts_reading context)) <|
      .cons (Field.store_of (ofNumber?_reading h)) <|
      .nil _
    exact congrArg (Except.map fun draft => draft.step .insert) hrecord
  | remove field =>
    have hrecord : record (variantShape .remove) {} (.table _ true) = .ok _ :=
      Shape.fromMembers_all (nodup_variantShape .remove) <|
      .cons (Field.store_of (text_reading type)) <|
      .cons (Field.store_of (text_reading field)) <|
      .nil _
    exact congrArg (Except.map fun draft => draft.step .remove) hrecord
  | convert field fieldType converter context =>
    have hrecord : record (variantShape .convert) {} (.table _ true) = .ok _ :=
      Shape.fromMembers_all (nodup_variantShape .convert) <|
      .cons (Field.store_of (text_reading type)) <|
      .cons (Field.store_of (text_reading field)) <|
      .cons (Field.store_of (text_reading fieldType)) <|
      .cons (Field.store_of (text_reading converter)) <|
      .cons (Field.store_of (texts_reading context)) <|
      .nil _
    exact congrArg (Except.map fun draft => draft.step .convert) hrecord

end Decoder

/-! ## Schemas -/

/-- **The indices in a schema fit in 64 bits.** -/
def Config.Fits (config : Config) : Prop :=
  ∀ version ∈ config.versions.values, ∀ step ∈ version.transformations, step.Fits

section Sections

variable {depth : Nat}

theorem InterfaceConfig.readable_json (interface : InterfaceConfig) :
    Readable (depth + 2) interface.json := by
  refine .object ?_
  simp only [List.forall_mem_cons]
  exact ⟨readable_texts _, OrderedMap.readable_json fun value _ => .text value,
    List.forall_mem_nil _⟩

theorem BaseTypeConfig.readable_json (type : BaseTypeConfig) : Readable (depth + 2) type.json := by
  refine .object ?_
  simp only [List.forall_mem_cons]
  exact ⟨readable_texts _, OrderedMap.readable_json fun value _ => .text value,
    List.forall_mem_nil _⟩

theorem CustomTypeConfig.readable_json (type : CustomTypeConfig) :
    Readable (depth + 1) type.json := by
  refine .object ?_
  simp only [List.forall_mem_cons]
  exact ⟨.text _, .text _, List.forall_mem_nil _⟩

theorem VersionConfig.readable_json {version : VersionConfig}
    (h : ∀ step ∈ version.transformations, step.Fits) : Readable (depth + 4) version.json := by
  refine .object ?_
  simp only [List.forall_mem_cons]
  exact ⟨readable_ofText? _,
    .array (List.forall_mem_map.mpr fun step hstep => Transformation.readable_json (h step hstep)),
    readable_ofText? _, List.forall_mem_nil _⟩

/-- A schema is nested six deep at most. -/
theorem Config.readable_json {config : Config} (h : config.Fits) :
    Readable (depth + 6) config.json := by
  refine .object ?_
  simp only [List.forall_mem_cons]
  exact ⟨.text _, OrderedMap.readable_json fun value _ => value.readable_json,
    OrderedMap.readable_json fun value _ => value.readable_json,
    OrderedMap.readable_json fun _ _ => readable_texts _,
    OrderedMap.readable_json fun value _ => value.readable_json,
    OrderedMap.readable_json fun value hvalue => VersionConfig.readable_json (h value hvalue),
    List.forall_mem_nil _⟩

end Sections

namespace Decoder

variable (format : DocumentFormat)

theorem interface_reading (value : InterfaceConfig) :
    interface format value.json.reading = .ok value :=
  Shape.fromMembers_all (by cases format <;> decide) <|
    .cons (Field.store_of (texts_reading value.extended)) <|
    .cons (Field.store_of (mapping_reading fun _ _ => rfl)) <|
    .nil _

theorem baseType_reading (value : BaseTypeConfig) :
    baseType format value.json.reading = .ok value :=
  Shape.fromMembers_all (by cases format <;> decide) <|
    .cons (Field.store_of (texts_reading value.implemented)) <|
    .cons (Field.store_of (mapping_reading fun _ _ => rfl)) <|
    .nil _

theorem customType_reading (value : CustomTypeConfig) :
    customType format value.json.reading = .ok value :=
  Shape.fromMembers_all (by cases format <;> decide) <|
    .cons (Field.store_of (text_reading value.representation)) <|
    .cons (Field.store_of (text_reading value.serializer)) <|
    .nil _

theorem version_reading {value : VersionConfig} (h : ∀ step ∈ value.transformations, step.Fits) :
    version format value.json.reading = .ok value :=
  Shape.fromMembers_all (by cases format <;> decide) <|
    .cons (Field.store_of (ofText?_reading value.previous)) <|
    .cons (Field.store_of (list_reading fun step hstep => transformation_reading (h step hstep))) <|
    .cons (Field.store_of (ofText?_reading value.changelog)) <|
    .nil _

/-- **A schema is decoded again**, section by section. -/
theorem config_reading {value : Config} (h : value.Fits) :
    config format value.json.reading = .ok value :=
  Shape.fromMembers_all (by cases format <;> decide) <|
    .cons (Field.store_of (text_reading value.currentVersion)) <|
    .cons (Field.store_of (mapping_reading fun entry _ => interface_reading format entry)) <|
    .cons (Field.store_of (mapping_reading fun entry _ => baseType_reading format entry)) <|
    .cons (Field.store_of (mapping_reading fun entry _ => texts_reading entry)) <|
    .cons (Field.store_of (mapping_reading fun entry _ => customType_reading format entry)) <|
    .cons (Field.store_of (mapping_reading fun entry hentry =>
      version_reading format (h entry hentry))) <|
    .nil _

end Decoder

/-- **A schema is decoded as it was encoded**, whether it is written on one line or over several.
Names may be any texts, sections may have their entries in any order, and indices may be any number
of 64 bits; the order of all entries is kept. -/
theorem Config.ofText_json {config : Config} (h : config.Fits) :
    ofText .json config.json.compact = .ok config ∧
    ofText .json config.json.pretty = .ok config := by
  have hreadable : Readable (121 + 6) config.json := readable_json h
  have hdecode := Decoder.config_reading .json h
  constructor
  · rw [ofText, Document.ofText, Json.read_compact hreadable, ofDocument, hdecode]
    rfl
  · rw [ofText, Document.ofText, Json.read_pretty hreadable, ofDocument, hdecode]
    rfl

/-- A schema with names that are empty, escaped or not of ASCII, entries that are not in the order
of their names, and all kinds of transformations. -/
def Config.unusual : Config where
  currentVersion := "v\"2\\"
  interfaces := ⟨[
    ("", ⟨["", "\t"], ⟨[("z", "int"), ("", "-é"), ("a", "§😀")], by decide⟩⟩)], by decide⟩
  baseTypes := ⟨[
    ("kind", ⟨[], ∅⟩),
    ("Base", ⟨["", ""], ⟨[("\x00", "\x1f")], by decide⟩⟩)], by decide⟩
  superTypes := ⟨[("b", []), ("a", ["Base", "kind"])], by decide⟩
  customTypes := ⟨[("\x7f", ⟨"pkg.Class", "pkg.Codec#\r\n"⟩)], by decide⟩
  versions := ⟨[
    ("v\"2\\", ⟨some "v1", [
      ⟨"kind", .move "a" "b" (some (2 ^ 64 - 1))⟩,
      ⟨"Base", .insert "" "int[]" "" ["\x08", "\x0c"] none⟩,
      ⟨"Base", .remove "type"⟩,
      ⟨"", .convert "/" "\u2028" "pkg.C" []⟩], some ""⟩),
    ("v1", ⟨none, [], none⟩)], by decide⟩

/-- The unusual schema is decoded as it was encoded. -/
theorem Config.ofText_json_unusual :
    Config.unusual.Fits ∧
    ofText .json Config.unusual.json.compact = .ok Config.unusual ∧
    ofText .json Config.unusual.json.pretty = .ok Config.unusual := by
  have hfits : Config.unusual.Fits := by
    intro version hversion step hstep index hindex
    simp only [unusual, OrderedMap.values, List.map_cons, List.map_nil, List.mem_cons,
      List.not_mem_nil, or_false] at hversion
    rcases hversion with rfl | rfl
    · simp only [List.mem_cons, List.not_mem_nil, or_false] at hstep
      rcases hstep with rfl | rfl | rfl | rfl <;>
        simp [FieldChange.index?] at hindex
      subst hindex
      decide
    · cases hstep
  exact ⟨hfits, ofText_json hfits⟩

end SchemaEvolution

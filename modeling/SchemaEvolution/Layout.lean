import SchemaEvolution.OrderedMap
import SchemaEvolution.Transformation

/-!
# Layouts, and what changes do to them

The layout of a base type is its fields in order, each with its type. What a change does to the
fields does not depend on what the fields carry: types in a layout, expressions in an upgrade,
values in an instance. It is therefore stated once, for any values. What a change brings in is asked
for only when its place is settled, and may fail. No move and no removal asks for a value.

## Main definitions

* `Layout`: the fields of a base type with their types
* `FieldChange.place`: a value arrives at a place
* `FieldChange.attempt`: one change, on fields that carry any values
* `FieldChange.apply`: one change whose values are there whenever it may ask for them
* `Layout.apply`: one change of a layout

## Main results

* `FieldChange.apply_move`, `FieldChange.apply_insert`, `FieldChange.apply_remove`,
  `FieldChange.apply_convert`: what each kind of change comes to
* `Layout.apply_eq`: on a layout every change that asks for a type introduces one
-/

namespace SchemaEvolution

universe u

/-- **A layout**: the fields of a base type, in order, with their types. -/
abbrev Layout := OrderedMap TypeRef

namespace FieldChange

variable {τ κ : Type} {α : Type u}

/-- The fields with a value that arrives under a name at a place. The name must be free and the
place must not lie behind the end; only then is the value asked for. -/
def arrive (site : FieldSite) (fields : OrderedMap α) (field : String) (index : Nat)
    (value : Unit → Except SchemaError α) : Except SchemaError (OrderedMap α) :=
  if taken : field ∈ fields then .error (.slotOccupied site field)
  else if fields.size < index then .error (.indexOutOfRange site index fields.size)
  else (value ()).map fun value => fields.insertAt index field value taken

/-- The fields with a given value that arrives under a name at a place. -/
def place (site : FieldSite) (fields : OrderedMap α) (field : String) (index : Nat) (value : α) :
    Except SchemaError (OrderedMap α) :=
  arrive site fields field index fun _ => .ok value

/-- **One change** on fields that carry values: `inserted` yields the value that an insertion
brings in, `converted` the value that a conversion puts in the place of the old one.

A move takes its field out before the new name and the new place are looked at, so a field may be
moved onto itself, and without an index it stays where it was. -/
def attempt (site : FieldSite) (change : FieldChange τ κ) (inserted : Unit → Except SchemaError α)
    (converted : α → Except SchemaError α) (fields : OrderedMap α) :
    Except SchemaError (OrderedMap α) :=
  match change with
  | move source target index =>
    match fields.slot? source with
    | none => .error (.fieldMissing site source)
    | some (slot, value) => place site (fields.erase source) target (index.getD slot) value
  | insert field _ _ _ index => arrive site fields field (index.getD fields.size) inserted
  | remove field =>
    if field ∈ fields then .ok (fields.erase field) else .error (.fieldMissing site field)
  | convert field _ _ _ =>
    match fields.get? field with
    | none => .error (.fieldMissing site field)
    | some value => (converted value).map fun value => fields.replace field value

/-- **One change** whose type and code say what it brings in: `start` for an insertion, `rework` for
a conversion. A move or a removal that asked for a new value would be at fault. -/
def apply (start : τ → κ → List String → α) (rework : τ → κ → List String → α → α)
    (site : FieldSite) (change : FieldChange τ κ) (fields : OrderedMap α) :
    Except SchemaError (OrderedMap α) :=
  match change with
  | insert _ type code context _ | convert _ type code context =>
    change.attempt site (fun _ => .ok (start type code context))
      (fun value => .ok (rework type code context value)) fields
  | move .. | remove _ =>
    change.attempt site
      (fun _ =>
        .error (.internal s!"{change.kind.word} step of '{site.type}' asked for a new value"))
      (fun value => .ok value) fields

variable {start : τ → κ → List String → α} {rework : τ → κ → List String → α → α}
  {site : FieldSite} {fields : OrderedMap α}

theorem place_eq {field : String} {index : Nat} {value : α} :
    place site fields field index value =
      if taken : field ∈ fields then .error (.slotOccupied site field)
      else if fields.size < index then .error (.indexOutOfRange site index fields.size)
      else .ok (fields.insertAt index field value taken) := rfl

theorem apply_move {source target : String} {index : Option Nat} :
    apply start rework site (.move source target index) fields =
      match fields.slot? source with
      | none => .error (.fieldMissing site source)
      | some (slot, value) =>
        place site (fields.erase source) target (index.getD slot) value := rfl

theorem apply_insert {field : String} {type : τ} {code : κ} {context : List String}
    {index : Option Nat} :
    apply start rework site (.insert field type code context index) fields =
      place site fields field (index.getD fields.size) (start type code context) := rfl

theorem apply_remove {field : String} :
    apply start rework site (.remove field) fields =
      if field ∈ fields then .ok (fields.erase field) else .error (.fieldMissing site field) := rfl

theorem apply_convert {field : String} {type : τ} {code : κ} {context : List String} :
    apply start rework site (.convert field type code context) fields =
      match fields.get? field with
      | none => .error (.fieldMissing site field)
      | some value => .ok (fields.replace field (rework type code context value)) := rfl

end FieldChange

namespace Layout

/-- The type that a change introduces, which has to introduce one. -/
def introduced (change : FieldChange TypeRef CodeRef) : Except SchemaError TypeRef :=
  match change.introduced? with
  | some type => .ok type
  | none => .error (.internal s!"{change.kind.word} step introduces no field type")

/-- **One change of a layout**: an insertion brings in its type, a conversion exchanges it. -/
def apply (site : FieldSite) (change : FieldChange TypeRef CodeRef) (layout : Layout) :
    Except SchemaError Layout :=
  change.attempt site (fun _ => introduced change) (fun _ => introduced change) layout

/-- Only changes that introduce a type ask for one. -/
theorem apply_eq (site : FieldSite) (change : FieldChange TypeRef CodeRef) (layout : Layout) :
    apply site change layout =
      change.apply (fun type _ _ => type) (fun type _ _ _ => type) site layout := by
  cases change <;> rfl

end Layout

end SchemaEvolution

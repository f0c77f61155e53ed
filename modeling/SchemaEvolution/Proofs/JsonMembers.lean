import SchemaEvolution.Interchange
import SchemaEvolution.Proofs.Maps

/-!
# Members of JSON values

A document is read by its members: one by its name, the items of an array, or whatever stands under
a name at any depth.

## Main definitions

* `Json.member`, `Json.members`, `Json.items`: the direct members of a value
* `Json.Occurs`: a value stands under a name somewhere in another one

## Main results

* `Json.occurs_object_cons`, `Json.occurs_array`: where a value can stand
* `Node.member_id`, `Node.member_kind`, `Node.member_name`, `Node.member_version`: what stands in
  every node
* `UpgradePath.member_from`, `UpgradePath.member_to`: the ends of a path
-/

namespace SchemaEvolution.Json

/-- The members of an object; none of any other value. -/
def members : Json → List (String × Json)
  | object members => members
  | _ => []

/-- The value under a name of an object; null where there is none. -/
def member (name : String) (json : Json) : Json :=
  (json.members.lookup name).getD null

/-- The items of an array; none of any other value. -/
def items : Json → List Json
  | array items => items
  | _ => []

/-- **A value stands under a name** somewhere in another one. -/
inductive Occurs (name : String) : (json value : Json) → Prop
  | here {members : List (String × Json)} {value : Json} (h : (name, value) ∈ members) :
      Occurs name (.object members) value
  | member {members : List (String × Json)} {entry : String × Json} {value : Json}
      (h : entry ∈ members) (hvalue : Occurs name entry.2 value) :
      Occurs name (.object members) value
  | item {items : List Json} {item value : Json} (h : item ∈ items)
      (hvalue : Occurs name item value) : Occurs name (.array items) value

variable {name key : String} {value json : Json}

@[simp] theorem member_object_nil : (object []).member name = null := rfl

@[simp] theorem member_object_cons {rest : List (String × Json)} :
    (object ((key, json) :: rest)).member name =
      if name = key then json else (object rest).member name := by
  by_cases hname : name = key
  · subst hname
    simp [member, members]
  · have hbeq : (name == key) = false := beq_eq_false_iff_ne.mpr hname
    simp [member, members, List.lookup, hbeq, hname]

@[simp] theorem not_occurs_null : ¬null.Occurs name value := nofun

@[simp] theorem not_occurs_boolean {flag : Bool} : ¬(boolean flag).Occurs name value := nofun

@[simp] theorem not_occurs_number {number : Nat} : ¬(Json.number number).Occurs name value := nofun

@[simp] theorem not_occurs_text {text : String} : ¬(Json.text text).Occurs name value := nofun

@[simp] theorem not_occurs_object_nil : ¬(object []).Occurs name value := by
  intro h
  cases h with
  | here h => cases h
  | member h => cases h

@[simp] theorem occurs_object_cons {rest : List (String × Json)} :
    (object ((key, json) :: rest)).Occurs name value ↔
      key = name ∧ json = value ∨ json.Occurs name value ∨ (object rest).Occurs name value := by
  constructor
  · intro h
    cases h with
    | here h =>
      rcases List.mem_cons.mp h with hfirst | hlater
      · obtain ⟨rfl, rfl⟩ := Prod.mk.inj hfirst
        exact .inl ⟨rfl, rfl⟩
      · exact .inr (.inr (.here hlater))
    | member h hvalue =>
      rcases List.mem_cons.mp h with rfl | hlater
      · exact .inr (.inl hvalue)
      · exact .inr (.inr (.member hlater hvalue))
  · rintro (⟨rfl, rfl⟩ | hfirst | hlater)
    · exact .here List.mem_cons_self
    · exact .member List.mem_cons_self hfirst
    · cases hlater with
      | here h => exact .here (List.mem_cons_of_mem _ h)
      | member h hvalue => exact .member (List.mem_cons_of_mem _ h) hvalue

@[simp] theorem occurs_array {items : List Json} :
    (array items).Occurs name value ↔ ∃ item ∈ items, item.Occurs name value := by
  constructor
  · intro h
    cases h with
    | item h hvalue => exact ⟨_, h, hvalue⟩
  · rintro ⟨item, h, hvalue⟩
    exact .item h hvalue

@[simp] theorem not_occurs_texts {values : List String} : ¬(texts values).Occurs name value := by
  simp [texts]

@[simp] theorem not_occurs_ofNumber? {number : Option Nat} :
    ¬(ofNumber? number).Occurs name value := by
  cases number <;> simp [ofNumber?]

theorem mem_items_texts {values : List String} (h : value ∈ (texts values).items) :
    ∃ text ∈ values, value = .text text := by
  obtain ⟨text, htext, rfl⟩ := List.mem_map.mp h
  exact ⟨text, htext, rfl⟩

end SchemaEvolution.Json

/-! ## Members of nodes and paths -/

namespace SchemaEvolution.Node

theorem member_id (node : Node) : node.json.member "id" = .number node.id := by
  unfold json
  cases node.kind <;> rfl

theorem member_kind (node : Node) : node.json.member "kind" = .text node.kind.word := by
  unfold json
  cases node.kind <;> rfl

theorem member_name (node : Node) : node.json.member "name" = .text node.name := by
  unfold json
  cases node.kind <;> rfl

theorem member_version (node : Node) : node.json.member "version" = .ofNumber? node.version := by
  unfold json
  cases node.kind <;> rfl

end SchemaEvolution.Node

namespace SchemaEvolution

theorem UpgradePath.member_from (path : UpgradePath) :
    path.json.member "from" = .text path.source.text := by
  unfold json
  cases path.body <;> rfl

theorem UpgradePath.member_to (path : UpgradePath) :
    path.json.member "to" = .text path.target.text := by
  unfold json
  cases path.body <;> rfl

end SchemaEvolution

import SchemaEvolution.Layout
import SchemaEvolution.Proofs.Maps

/-!
# What a change does to fields of any kind

A change moves, adds, drops and reworks values without looking at them. Two runs of one change on
fields with the same names in the same order therefore fail alike, or keep whatever relation
there was between the values.

## Main definitions

* `OrderedMap.Related R m n`: the same names in the same order, with values related by `R`
* `AgreeUpTo R x y`: both fail with one error, or both succeed with results related by `R`

## Main results

* `FieldChange.apply_related_resolved`, `FieldChange.apply_related`: a change keeps a relation that
  insertions and conversions keep, also between two resolutions of it
* `Layout.values_apply`: a changed layout has no types but the old ones and the introduced one
-/

namespace SchemaEvolution

universe u v w

variable {α : Type u} {β : Type v} {ε : Type w}

/-- **Both fail with the same error, or both succeed** with related results. -/
def AgreeUpTo (R : α → β → Prop) : Except ε α → Except ε β → Prop
  | .ok a, .ok b => R a b
  | .error e, .error e' => e = e'
  | _, _ => False

namespace AgreeUpTo

variable {R : α → β → Prop} {x : Except ε α} {y : Except ε β}

theorem exists_right (h : AgreeUpTo R x y) {a : α} (hx : x = .ok a) :
    ∃ b, y = .ok b ∧ R a b := by
  subst hx
  cases y with
  | error e => exact h.elim
  | ok b => exact ⟨b, rfl, h⟩

theorem exists_left (h : AgreeUpTo R x y) {b : β} (hy : y = .ok b) :
    ∃ a, x = .ok a ∧ R a b := by
  subst hy
  cases x with
  | error e => exact h.elim
  | ok a => exact ⟨a, rfl, h⟩

end AgreeUpTo

/-! ## Related maps -/

namespace OrderedMap

/-- **The same names in the same order**, with related values. -/
def Related (R : α → β → Prop) (m : OrderedMap α) (n : OrderedMap β) : Prop :=
  List.Forall₂ (fun a b => a.1 = b.1 ∧ R a.2 b.2) m.entries n.entries

variable {R : α → β → Prop} {m : OrderedMap α} {n : OrderedMap β}

theorem Related.keys_eq (h : Related R m n) : m.keys = n.keys :=
  map_eq_map_of_forall₂ h fun _ _ hab => hab.1

theorem Related.size_eq (h : Related R m n) : m.size = n.size := List.Forall₂.length_eq h

theorem Related.mem_iff (h : Related R m n) (key : String) : key ∈ m ↔ key ∈ n := by
  rw [mem_iff_mem_keys, mem_iff_mem_keys, h.keys_eq]

theorem Related.erase (h : Related R m n) (key : String) :
    Related R (m.erase key) (n.erase key) :=
  List.rel_filter (fun _ _ hab => by simp [hab.1]) h

theorem Related.insertAt (h : Related R m n) {a : α} {b : β} (hab : R a b) (place : Nat)
    (key : String) (hm : key ∉ m) (hn : key ∉ n) :
    Related R (m.insertAt place key a hm) (n.insertAt place key b hn) :=
  List.rel_append (List.forall₂_take place h) (.cons ⟨rfl, hab⟩ (List.forall₂_drop place h))

theorem Related.replace (h : Related R m n) {a : α} {b : β} (hab : R a b) (key : String) :
    Related R (m.replace key a) (n.replace key b) := by
  refine List.rel_map (fun x y hxy => ?_) h
  unfold replaceEntry
  rw [hxy.1]
  split
  · exact ⟨rfl, hab⟩
  · exact hxy

theorem slotFrom_related {key : String} {xs : List (String × α)} {ys : List (String × β)}
    (h : List.Forall₂ (fun a b => a.1 = b.1 ∧ R a.2 b.2) xs ys) (start : Nat) :
    Option.Rel (fun p q => p.1 = q.1 ∧ R p.2 q.2) (slotFrom key start xs)
      (slotFrom key start ys) := by
  induction h generalizing start with
  | nil => exact .none
  | @cons a b xs ys hab _ ih =>
    obtain ⟨name, a⟩ := a
    obtain ⟨name', b⟩ := b
    obtain rfl : name = name' := hab.1
    unfold slotFrom
    split
    · exact .some ⟨rfl, hab.2⟩
    · exact ih (start + 1)

theorem lookup_related {key : String} {xs : List (String × α)} {ys : List (String × β)}
    (h : List.Forall₂ (fun a b => a.1 = b.1 ∧ R a.2 b.2) xs ys) :
    Option.Rel R (xs.lookup key) (ys.lookup key) := by
  induction h with
  | nil => exact .none
  | @cons a b xs ys hab _ ih =>
    obtain ⟨name, a⟩ := a
    obtain ⟨name', b⟩ := b
    obtain rfl : name = name' := hab.1
    rw [lookup_cons_eq, lookup_cons_eq]
    split
    · exact .some hab.2
    · exact ih

theorem Related.slot? (h : Related R m n) (key : String) :
    Option.Rel (fun p q => p.1 = q.1 ∧ R p.2 q.2) (m.slot? key) (n.slot? key) :=
  slotFrom_related h 0

theorem Related.get? (h : Related R m n) (key : String) :
    Option.Rel R (m.get? key) (n.get? key) :=
  lookup_related h

end OrderedMap

/-! ## Changes -/

namespace FieldChange

open OrderedMap

variable {τ κ τ' κ' : Type} {α : Type u} {β : Type v} {R : α → β → Prop}

theorem place_related {m : OrderedMap α} {n : OrderedMap β} (h : Related R m n) {a : α} {b : β}
    (hab : R a b) (site : FieldSite) (field : String) (index : Nat) :
    AgreeUpTo (Related R) (place site m field index a) (place site n field index b) := by
  rw [place_eq, place_eq, ← h.size_eq]
  by_cases hm : field ∈ m
  · rw [dif_pos hm, dif_pos ((h.mem_iff field).mp hm)]
    exact rfl
  · have hn : field ∉ n := fun hn => hm ((h.mem_iff field).mpr hn)
    rw [dif_neg hm, dif_neg hn]
    split
    · exact rfl
    · exact h.insertAt hab index field hm hn

theorem traverse_insert_eq_ok {resolve : τ → κ → List String → Except SchemaError (τ' × κ')}
    {field : String} {type : τ} {code : κ} {context : List String} {index : Option Nat}
    {change : FieldChange τ' κ'}
    (h : (FieldChange.insert field type code context index).traverse resolve = .ok change) :
    ∃ out, resolve type code context = .ok out ∧
      change = .insert field out.1 out.2 context index := by
  rw [traverse] at h
  split at h
  · cases h
  · exact ⟨_, ‹_›, (Except.ok.inj h).symm⟩

theorem traverse_convert_eq_ok {resolve : τ → κ → List String → Except SchemaError (τ' × κ')}
    {field : String} {type : τ} {code : κ} {context : List String} {change : FieldChange τ' κ'}
    (h : (FieldChange.convert field type code context).traverse resolve = .ok change) :
    ∃ out, resolve type code context = .ok out ∧ change = .convert field out.1 out.2 context := by
  rw [traverse] at h
  split at h
  · cases h
  · exact ⟨_, ‹_›, (Except.ok.inj h).symm⟩

/-- **Two resolutions of one change keep every relation** that what they bring in keeps. -/
theorem apply_related_resolved {τ₁ κ₁ : Type}
    {resolve : τ → κ → List String → Except SchemaError (τ₁ × κ₁)}
    {resolve' : τ → κ → List String → Except SchemaError (τ' × κ')}
    {start : τ₁ → κ₁ → List String → α} {rework : τ₁ → κ₁ → List String → α → α}
    {start' : τ' → κ' → List String → β} {rework' : τ' → κ' → List String → β → β}
    (hstart : ∀ {type code context out out'}, resolve type code context = .ok out →
      resolve' type code context = .ok out' →
        R (start out.1 out.2 context) (start' out'.1 out'.2 context))
    (hrework : ∀ {type code context out out'}, resolve type code context = .ok out →
      resolve' type code context = .ok out' → ∀ {a b}, R a b →
        R (rework out.1 out.2 context a) (rework' out'.1 out'.2 context b))
    {change : FieldChange τ κ} {resolved : FieldChange τ₁ κ₁} {resolved' : FieldChange τ' κ'}
    (hchange : change.traverse resolve = .ok resolved)
    (hchange' : change.traverse resolve' = .ok resolved') {m : OrderedMap α} {n : OrderedMap β}
    (h : Related R m n) (site : FieldSite) :
    AgreeUpTo (Related R) (resolved.apply start rework site m)
      (resolved'.apply start' rework' site n) := by
  cases change with
  | move source target index =>
    obtain rfl := Except.ok.inj hchange
    obtain rfl := Except.ok.inj hchange'
    rw [apply_move, apply_move]
    have hslot := h.slot? source
    generalize m.slot? source = slot, n.slot? source = slot' at hslot
    cases hslot with
    | none => exact rfl
    | some hpq =>
      dsimp only
      rw [hpq.1]
      exact place_related (h.erase source) hpq.2 site target _
  | remove field =>
    obtain rfl := Except.ok.inj hchange
    obtain rfl := Except.ok.inj hchange'
    rw [apply_remove, apply_remove]
    by_cases hm : field ∈ m
    · rw [if_pos hm, if_pos ((h.mem_iff field).mp hm)]
      exact h.erase field
    · rw [if_neg hm, if_neg fun hn => hm ((h.mem_iff field).mpr hn)]
      exact rfl
  | insert field type code context index =>
    obtain ⟨out, hout, rfl⟩ := traverse_insert_eq_ok hchange
    obtain ⟨out', hout', rfl⟩ := traverse_insert_eq_ok hchange'
    rw [apply_insert, apply_insert, h.size_eq]
    exact place_related h (hstart hout hout') site field _
  | convert field type code context =>
    obtain ⟨out, hout, rfl⟩ := traverse_convert_eq_ok hchange
    obtain ⟨out', hout', rfl⟩ := traverse_convert_eq_ok hchange'
    rw [apply_convert, apply_convert]
    have hget := h.get? field
    generalize m.get? field = value, n.get? field = value' at hget
    cases hget with
    | none => exact rfl
    | some hab => exact h.replace (hrework hout hout' hab) field

/-- A change resolves to itself. -/
theorem traverse_self (change : FieldChange τ κ) :
    change.traverse (fun type code _ => (.ok (type, code) : Except SchemaError (τ × κ))) =
      .ok change := by
  cases change <;> rfl

/-- **A change keeps every relation that its insertions and conversions keep**, also when its
types and its code are resolved on one side only. -/
theorem apply_related {start : τ → κ → List String → α} {rework : τ → κ → List String → α → α}
    {start' : τ' → κ' → List String → β} {rework' : τ' → κ' → List String → β → β}
    {resolve : τ → κ → List String → Except SchemaError (τ' × κ')}
    (hstart : ∀ type code context type' code', resolve type code context = .ok (type', code') →
      R (start type code context) (start' type' code' context))
    (hrework : ∀ type code context type' code', resolve type code context = .ok (type', code') →
      ∀ a b, R a b → R (rework type code context a) (rework' type' code' context b))
    {change : FieldChange τ κ} {change' : FieldChange τ' κ'}
    (hchange : change.traverse resolve = .ok change') {m : OrderedMap α} {n : OrderedMap β}
    (h : Related R m n) (site : FieldSite) :
    AgreeUpTo (Related R) (change.apply start rework site m)
      (change'.apply start' rework' site n) := by
  refine apply_related_resolved (fun hsame hresolve => ?_) (fun hsame hresolve _ _ hab => ?_)
    (traverse_self change) hchange h site
  · obtain rfl := Except.ok.inj hsame
    exact hstart _ _ _ _ _ hresolve
  · obtain rfl := Except.ok.inj hsame
    exact hrework _ _ _ _ _ hresolve _ _ hab

/-! ### Success and failure -/

/-- A change resolves when what it introduces and its code do. -/
theorem exists_traverse {resolve : τ → κ → List String → Except SchemaError (τ' × κ')}
    {change : FieldChange τ κ}
    (h : ∀ type code, change.introduced? = some type → change.code? = some code →
      ∃ out, resolve type code change.context = .ok out) :
    ∃ change', change.traverse resolve = .ok change' := by
  cases change with
  | move source target index => exact ⟨_, rfl⟩
  | remove field => exact ⟨_, rfl⟩
  | insert field type code context index =>
    obtain ⟨⟨type', code'⟩, hout⟩ := h type code rfl rfl
    have hout : resolve type code context = .ok (type', code') := hout
    exact ⟨.insert field type' code' context index, by rw [traverse, hout]⟩
  | convert field type code context =>
    obtain ⟨⟨type', code'⟩, hout⟩ := h type code rfl rfl
    have hout : resolve type code context = .ok (type', code') := hout
    exact ⟨.convert field type' code' context, by rw [traverse, hout]⟩

theorem place_eq_ok {site : FieldSite} {fields out : OrderedMap α} {field : String} {index : Nat}
    {value : α} (h : place site fields field index value = .ok out) :
    ∃ hfresh : field ∉ fields, index ≤ fields.size ∧
      out = fields.insertAt index field value hfresh := by
  rw [place_eq] at h
  split at h
  · cases h
  · split at h
    · cases h
    · exact ⟨‹_›, by omega, (Except.ok.inj h).symm⟩

theorem place_blamesSchema {α : Type} (site : FieldSite) (fields : OrderedMap α) (field : String)
    (index : Nat) (value : α) : BlamesSchema (place site fields field index value) := by
  rw [place_eq]
  split
  · exact .error rfl
  · split
    · exact .error rfl
    · exact .ok _

theorem apply_blamesSchema {α : Type} (start : τ → κ → List String → α)
    (rework : τ → κ → List String → α → α) (site : FieldSite) (change : FieldChange τ κ)
    (fields : OrderedMap α) : BlamesSchema (change.apply start rework site fields) := by
  cases change with
  | move source target index =>
    rw [apply_move]
    split
    · exact .error rfl
    · exact place_blamesSchema _ _ _ _ _
  | insert field type code context index => exact place_blamesSchema _ _ _ _ _
  | remove field =>
    rw [apply_remove]
    split
    · exact .ok _
    · exact .error rfl
  | convert field type code context =>
    rw [apply_convert]
    split
    · exact .error rfl
    · exact .ok _

end FieldChange

/-- A changed layout has no types but those that it had and the introduced one. -/
theorem Layout.values_apply {site : FieldSite} {change : FieldChange TypeRef CodeRef}
    {layout out : Layout} (h : layout.apply site change = .ok out) {ref : TypeRef}
    (href : ref ∈ out.values) : ref ∈ layout.values ∨ change.introduced? = some ref := by
  rw [Layout.apply_eq] at h
  cases change with
  | move source target index =>
    rw [FieldChange.apply_move] at h
    split at h
    · cases h
    · rename_i slot value hslot
      obtain ⟨hfresh, -, rfl⟩ := FieldChange.place_eq_ok h
      rcases OrderedMap.mem_values_of_insertAt href with rfl | href
      · exact .inl (OrderedMap.mem_values_of_slot? hslot)
      · exact .inl (OrderedMap.mem_values_of_erase href)
  | insert field type code context index =>
    obtain ⟨hfresh, -, rfl⟩ := FieldChange.place_eq_ok h
    rcases OrderedMap.mem_values_of_insertAt href with rfl | href
    · exact .inr rfl
    · exact .inl href
  | remove field =>
    rw [FieldChange.apply_remove] at h
    split at h
    · obtain rfl := Except.ok.inj h
      exact .inl (OrderedMap.mem_values_of_erase href)
    · cases h
  | convert field type code context =>
    rw [FieldChange.apply_convert] at h
    split at h
    · cases h
    · obtain rfl := Except.ok.inj h
      rcases OrderedMap.mem_values_of_replace href with rfl | href
      · exact .inr rfl
      · exact .inl href

theorem Layout.apply_blamesSchema (site : FieldSite) (change : FieldChange TypeRef CodeRef)
    (layout : Layout) : BlamesSchema (layout.apply site change) := by
  rw [Layout.apply_eq]
  exact FieldChange.apply_blamesSchema _ _ _ _ _

end SchemaEvolution

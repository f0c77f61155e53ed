import SchemaEvolution.Graph.Index
import SchemaEvolution.Proofs.Maps

/-!
# The nodes in the dependency index

Entering nodes never touches names and references, and changes nothing but the node of one name
at one version. The dependents of a name are exactly the names that refer to it.

## Main definitions

* `Index.node?`: the node of a name at a version, once it is entered
* `Index.SameShape`: the same names with the same references, whatever nodes are entered

## Main results

* `Index.mem_dependents_iff`: dependents are the inverse of references
* `Index.resolve_eq_ok_iff`: resolving finds exactly the entered nodes
* `Index.node?_store`: what entering a node changes
* `Index.Action.run_bind`: one action after the other, in vain or not
* `Index.run_enter_of_vacant`, `Index.run_resolveOrEnter_of_vacant`: entering a node that is not
  there yet
-/

namespace SchemaEvolution.Index

/-- The node of a name at a version, once it is entered. -/
def node? (index : Index) (name : String) (version : Nat) : Option NodeId :=
  ((index.row version).get? name).bind Slot.node

/-- The same names with the same references at every version. -/
structure SameShape (index index' : Index) : Prop where
  size : index.size = index'.size
  names : ∀ version, index.names version = index'.names version
  references : ∀ name version, index.references name version = index'.references name version

theorem SameShape.refl (index : Index) : SameShape index index :=
  ⟨rfl, fun _ => rfl, fun _ _ => rfl⟩

theorem SameShape.trans {a b c : Index} (hab : SameShape a b) (hbc : SameShape b c) :
    SameShape a c :=
  ⟨hab.size.trans hbc.size, fun version => (hab.names version).trans (hbc.names version),
    fun name version => (hab.references name version).trans (hbc.references name version)⟩

variable {index : Index} {name other : String} {version version' : Nat} {id : NodeId}

/-! ## References and dependents -/

/-- **The dependents of a name are the names that refer to it.** -/
theorem mem_dependents_iff :
    other ∈ index.dependents name version ↔ name ∈ index.references other version := by
  constructor
  · intro h
    rw [dependents_eq_filter] at h
    obtain ⟨⟨other', slot⟩, hentry, rfl⟩ := List.mem_map.mp h
    obtain ⟨hmem, hrefers⟩ := List.mem_filter.mp hentry
    rw [references, SortedMap.get?_eq_some_iff.mpr hmem]
    simpa using hrefers
  · intro h
    unfold references at h
    cases hget : (index.row version).get? other with
    | none => simp [hget] at h
    | some slot =>
      have hmem := SortedMap.get?_eq_some_iff.mp hget
      rw [dependents_eq_filter]
      refine List.mem_map.mpr ⟨(other, slot), List.mem_filter.mpr ⟨hmem, ?_⟩, rfl⟩
      simpa [hget] using h

/-! ## Finding nodes -/

theorem mem_names_iff : name ∈ index.names version ↔ ((index.row version).get? name).isSome :=
  SortedMap.get?_isSome_iff.symm

/-- **Resolving finds exactly the entered nodes.** -/
theorem resolve_eq_ok_iff :
    index.resolve name version = .ok id ↔ index.node? name version = some id := by
  unfold resolve slot node?
  cases (index.row version).get? name with
  | none => exact ⟨nofun, nofun⟩
  | some slot =>
    rw [ok_bind, Option.bind_some]
    cases slot.node with
    | none => exact ⟨nofun, nofun⟩
    | some node =>
      exact ⟨fun h => congrArg some (Except.ok.inj h), fun h => congrArg _ (Option.some.inj h)⟩

/-- What is not resolved is reported as a type that is not found. -/
theorem resolve_eq_error_iff {e : SchemaError} : index.resolve name version = .error e ↔
    index.node? name version = none ∧ e = .typeNotFound name version := by
  unfold resolve slot node?
  cases (index.row version).get? name with
  | none => exact ⟨fun h => ⟨rfl, (Except.error.inj h).symm⟩, fun h => congrArg _ h.2.symm⟩
  | some slot =>
    rw [ok_bind, Option.bind_some]
    cases slot.node with
    | none => exact ⟨fun h => ⟨rfl, (Except.error.inj h).symm⟩, fun h => congrArg _ h.2.symm⟩
    | some node => exact ⟨nofun, nofun⟩

theorem resolve_congr {other : Index} (h : index.node? name version = other.node? name version) :
    index.resolve name version = other.resolve name version := by
  cases hresolve : other.resolve name version with
  | ok id => rwa [resolve_eq_ok_iff, h, ← resolve_eq_ok_iff]
  | error e => rwa [resolve_eq_error_iff, h, ← resolve_eq_error_iff]

theorem mem_names_of_node? (h : index.node? name version = some id) :
    name ∈ index.names version := by
  obtain ⟨slot, hslot, -⟩ := Option.bind_eq_some_iff.mp h
  rw [mem_names_iff, hslot]
  rfl

theorem lt_size_of_mem_names (h : name ∈ index.names version) : version < index.size := by
  by_contra hge
  have hnone : index.rows[version]? = none := List.getElem?_eq_none (Nat.not_lt.mp hge)
  rw [names, row, hnone] at h
  cases h

/-! ## Entering nodes -/

theorem row_store :
    (index.store name version id).row version' =
      if version = version' then (index.row version').map fun other slot =>
        if other = name then { slot with node := some id } else slot
      else index.row version' := by
  unfold row store
  rw [List.getElem?_modify]
  cases index.rows[version']? with
  | none => split <;> rfl
  | some row => split <;> rfl

theorem sameShape_store : SameShape index (index.store name version id) where
  size := by rw [size, size, store, List.length_modify]
  names version' := by
    unfold names
    rw [row_store]
    split
    · rw [SortedMap.keys_map]
    · rfl
  references other version' := by
    unfold references
    rw [row_store]
    split
    · rw [SortedMap.get?_map]
      cases (index.row version').get? other with
      | none => rfl
      | some slot =>
        simp only [Option.map_some]
        split <;> rfl
    · rfl

/-- **Entering a node** changes nothing but the node of one name at one version. -/
theorem node?_store (hname : name ∈ index.names version) :
    (index.store name version id).node? other version' =
      if other = name ∧ version' = version then some id else index.node? other version' := by
  unfold node?
  rw [row_store]
  by_cases hv : version = version'
  · subst hv
    rw [if_pos rfl, SortedMap.get?_map]
    by_cases ho : other = name
    · subst ho
      obtain ⟨slot, hslot⟩ := Option.isSome_iff_exists.mp (mem_names_iff.mp hname)
      simp [hslot]
    · rw [if_neg fun h => ho h.1]
      cases (index.row version).get? other with
      | none => rfl
      | some slot => simp [ho]
  · rw [if_neg hv, if_neg fun h => hv h.2.symm]

theorem slot_of_known (hname : name ∈ index.names version) : index.slot name version =
    .ok ⟨index.references name version, index.node? name version⟩ := by
  obtain ⟨slot, hslot⟩ := Option.isSome_iff_exists.mp (mem_names_iff.mp hname)
  simp [Index.slot, references, node?, hslot]

section Actions

variable {α β : Type}

theorem Action.run_bind (action : Action α) (next : α → Action β) (index : Index) :
    (action >>= next).run index =
      match action.run index with
      | (.ok value, index) => (next value).run index
      | (.error e, index) => (.error e, index) := by
  unfold ExceptT.run
  simp only [Bind.bind, ExceptT.bind, ExceptT.mk, StateT.bind, ExceptT.bindCont]
  rcases action index with ⟨_ | _, _⟩ <;> rfl

theorem Action.run_get (index : Index) : (get : Action Index).run index = (.ok index, index) := rfl

/-- A result does not touch the index. -/
theorem Action.run_result (result : Except SchemaError α) (index : Index) :
    (liftM result : Action α).run index = (result, index) := by
  cases result <;> rfl

/-- Of actions that succeed, one after the other is one result after the other. -/
theorem Action.outcome_bind (action : Action α) (next : α → Action β) (index : Index) :
    (action >>= next).outcome index =
      action.outcome index >>= fun (value, index) => (next value).outcome index := by
  rw [outcome, outcome, run_bind]
  rcases action.run index with ⟨_ | _, _⟩ <;> rfl

end Actions

section Vacant

variable (hname : name ∈ index.names version) (hnone : index.node? name version = none)

include hname hnone

theorem run_enter_of_vacant (id : NodeId) :
    (enter name version id).run index = (.ok (), index.store name version id) := by
  simp only [enter, Action.run_bind, Action.run_get, Action.run_result, slot_of_known hname, hnone]
  rfl

/-- Where there is no node yet, the computation is run, and what it comes to is entered. -/
theorem run_resolveOrEnter_of_vacant (f : Unit → Except SchemaError NodeId) :
    (resolveOrEnter name version f).run index =
      match f () with
      | .ok id => (.ok (id, true), index.store name version id)
      | .error e => (.error e, index) := by
  simp only [resolveOrEnter, Action.run_bind, Action.run_get, Action.run_result,
    slot_of_known hname, hnone]
  cases f () <;> rfl

theorem bind_of_fresh (id : NodeId) :
    index.bind name version id = .ok (index.store name version id) := by
  rw [Index.bind, Action.outcome, run_enter_of_vacant hname hnone]
  rfl

theorem resolveOrBind_of_vacant (f : Unit → Except SchemaError NodeId) :
    index.resolveOrBind name version f =
      (f ()).map fun id => ⟨id, true, index.store name version id⟩ := by
  rw [resolveOrBind, Action.outcome, run_resolveOrEnter_of_vacant hname hnone]
  cases f () <;> rfl

theorem resolveOrBind_of_fresh {f : Unit → Except SchemaError NodeId} (hcompute : f () = .ok id) :
    index.resolveOrBind name version f = .ok ⟨id, true, index.store name version id⟩ := by
  rw [resolveOrBind_of_vacant hname hnone, hcompute]
  rfl

end Vacant

/-! ## The index without nodes -/

section OfReferences

variable {rows : List (SortedMap (List String))}

theorem row_ofReferences :
    (ofReferences rows).row version =
      ((rows[version]?).getD ∅).map fun _ targets => ⟨targets, none⟩ := by
  unfold row ofReferences
  rw [List.getElem?_map]
  cases rows[version]? with
  | none => rfl
  | some row => rfl

theorem size_ofReferences : (ofReferences rows).size = rows.length := List.length_map _

theorem names_ofReferences {row : SortedMap (List String)} (h : rows[version]? = some row) :
    (ofReferences rows).names version = row.keys := by
  rw [names, row_ofReferences, h, Option.getD_some, SortedMap.keys_map]

theorem references_ofReferences {row : SortedMap (List String)} (h : rows[version]? = some row) :
    (ofReferences rows).references name version = (row.get? name).getD [] := by
  rw [references, row_ofReferences, h, Option.getD_some, SortedMap.get?_map]
  cases row.get? name <;> rfl

theorem node?_ofReferences : (ofReferences rows).node? name version = none := by
  rw [node?, row_ofReferences, SortedMap.get?_map]
  cases ((rows[version]?).getD ∅).get? name <;> rfl

end OfReferences

end SchemaEvolution.Index

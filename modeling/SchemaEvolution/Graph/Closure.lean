import SchemaEvolution.Graph.Index

/-!
# Everything that depends on some types

When a type changes, so does every type that refers to it, directly or through others.

## Main definitions

* `Index.closure`: some names and all that depend on them at a version

## Main results

* `Index.outside_lt`: each round that finds something new leaves fewer names outside, so
  the search ends on every graph, also on one with circles
-/

namespace SchemaEvolution

namespace NameSet

/-- The set with all names of a list. -/
def addAll (set : NameSet) (names : List String) : NameSet := names.foldl add set

theorem mem_addAll {set : NameSet} {names : List String} {name : String} :
    name ∈ (addAll set names).keys ↔ name ∈ names ∨ name ∈ set.keys := by
  induction names generalizing set with
  | nil => simp [addAll]
  | cons first rest ih =>
    have step : addAll set (first :: rest) = addAll (set.insert first ()) rest := rfl
    rw [step, ih, SortedMap.mem_keys_insert, List.mem_cons]
    exact or_left_comm.trans or_assoc.symm

end NameSet

namespace Index

/-- The names at a version that are outside a set. -/
def outside (index : Index) (version : Nat) (set : NameSet) : List String :=
  (index.names version).filter fun name => !decide (name ∈ set)

/-- The names that depend directly on one and are outside a set. -/
def newDependents (index : Index) (version : Nat) (set : NameSet) (name : String) :
    List String :=
  (index.dependents name version).filter fun other => !decide (other ∈ set)

theorem mem_names_of_mem_dependents {index : Index} {version : Nat} {name other : String}
    (mem : other ∈ index.dependents name version) : other ∈ index.names version := by
  rw [dependents_eq_filter] at mem
  obtain ⟨entry, inside, rfl⟩ := List.mem_map.mp mem
  exact List.mem_map_of_mem (List.mem_filter.mp inside).1

/-- Adding new dependents to a set leaves fewer names outside. -/
theorem outside_lt {index : Index} {version : Nat} {set : NameSet} {name : String}
    (found : index.newDependents version set name ≠ []) :
    (index.outside version (set.addAll (index.newDependents version set name))).length <
      (index.outside version set).length := by
  obtain ⟨first, rest, new⟩ := List.exists_cons_of_ne_nil found
  have isNew : first ∈ index.newDependents version set name := by simp [new]
  obtain ⟨isDependent, notIn⟩ := List.mem_filter.mp isNew
  have less : index.outside version (set.addAll (index.newDependents version set name)) =
      (index.outside version set).filter fun other =>
        !decide (other ∈ index.newDependents version set name) := by
    simp only [outside, List.filter_filter]
    congr 1
    funext other
    have member : other ∈ set.addAll (index.newDependents version set name) ↔
        other ∈ index.newDependents version set name ∨ other ∈ set := NameSet.mem_addAll
    by_cases hnew : other ∈ index.newDependents version set name <;>
      by_cases hold : other ∈ set <;> simp [member, hnew, hold]
  rw [less, List.length_filter_lt_length_iff_exists]
  exact ⟨first, List.mem_filter.mpr ⟨mem_names_of_mem_dependents isDependent, notIn⟩,
    by simp [isNew]⟩

/-- A set with all that depends on the names that are still to be looked at. -/
def closeOver (index : Index) (version : Nat) (set : NameSet) : (pending : List String) → NameSet
  | [] => set
  | name :: pending =>
    closeOver index version (set.addAll (index.newDependents version set name))
      (index.newDependents version set name ++ pending)
  termination_by pending => ((index.outside version set).length, pending.length)
  decreasing_by
    by_cases none : index.newDependents version set name = []
    · rw [none]
      exact Prod.Lex.right _ (Nat.lt_succ_self _)
    · exact Prod.Lex.left _ _ (outside_lt none)

/-- **Some names and all that depend on them**, directly or through others, at a version. -/
def closure (index : Index) (version : Nat) (seed : List String) : NameSet :=
  index.closeOver version (.ofNames seed) seed

end Index

end SchemaEvolution

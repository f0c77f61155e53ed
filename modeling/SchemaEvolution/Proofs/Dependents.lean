import SchemaEvolution.Proofs.WriteOnce

/-!
# Who refers to whom, from both sides

The dependents that an index knows at a version are the lists of the inverted table, whatever nodes
are entered meanwhile: no call touches names and references.

## Main results

* `Index.dependents_ofReferences`: the dependents of an index are those of the inverted table
* `Index.dependents_exact`: dependents are the inverse of references, in order and without
  repetitions
-/

namespace SchemaEvolution

namespace Index

variable {rows : List References} {table : References} {index : Index} {name : String}
  {version : Nat}

/-! ## The dependents of an index -/

/-- Dependents ascend, so none comes twice. -/
theorem pairwise_dependents (index : Index) (name : String) (version : Nat) :
    (index.dependents name version).Pairwise (· < ·) := by
  rw [dependents_eq]
  exact (index.row version).ascending.filter _

/-- **The dependents of an index are those of the inverted table**. -/
theorem dependents_ofReferences (h : rows[version]? = some table) :
    (ofReferences rows).dependents name version = table.invert.listed name := by
  rw [dependents, tableAt, row_ofReferences, h, References.listed_invert, References.listed_invert,
    Option.getD_some, SortedMap.map, SortedMap.map, List.filter_map, List.filter_map, List.map_map,
    List.map_map]
  rfl

/-- Nothing is known of a version that does not exist. -/
theorem row_of_size_le (h : index.size ≤ version) : index.row version = ∅ := by
  have hnone : index.rows[version]? = none := List.getElem?_eq_none h
  rw [row, hnone]
  rfl

/-- **Dependents are the inverse of references**, whatever nodes are entered into the index of a
list of tables. A name depends on another one exactly when it refers to it. The dependents of a name
ascend, so none comes twice. References are those of the table of the version, dependents those of
the inverted table, and a version without a table has neither. -/
theorem dependents_exact (rows : List References) (calls : List Call) (name other : String)
    (version : Nat) :
    let index := ((ofReferences rows).run calls).index
    (other ∈ index.dependents name version ↔ name ∈ index.references other version) ∧
    (index.dependents name version).Pairwise (· < ·) ∧
    (∀ table, rows[version]? = some table → index.references name version = table.listed name ∧
      index.dependents name version = table.invert.listed name) ∧
    (rows.length ≤ version → index.references name version = [] ∧
      index.dependents name version = []) := by
  intro index
  have hstart : Recorded (ofReferences rows) ⟨ofReferences rows, []⟩ :=
    ⟨.refl _, fun _ _ => node?_ofReferences, List.nodup_nil⟩
  have hshape : SameShape (ofReferences rows) index := (hstart.run calls).shape
  refine ⟨mem_dependents_iff, pairwise_dependents index name version, fun table htable => ?_,
    fun hpast => ?_⟩
  · rw [← hshape.references, ← hshape.dependents, references_ofReferences htable,
      dependents_ofReferences htable]
    exact ⟨rfl, rfl⟩
  · have hrow : index.row version = ∅ := by
      refine row_of_size_le ?_
      rwa [← hshape.size, size_ofReferences]
    rw [references, dependents_eq_filter, hrow]
    exact ⟨rfl, rfl⟩

/-- `A` refers to `B` twice and to a name without an entry, and `A` and `B` refer to each other. -/
def referencesSample : References :=
  .ofList [("A", ["B", "C", "B"]), ("B", ["A"]), ("D", ["B", "D"])]

/-- A repeated reference is listed once, what has no entry has dependents too, and a second version
has none. -/
theorem dependents_exact_circular :
    let index := ((ofReferences [referencesSample]).run [.bind "A" 0 3]).index
    [referencesSample][0]? = some referencesSample ∧ [referencesSample].length ≤ 1 ∧
      index.dependents "B" 0 = ["A", "D"] ∧ index.dependents "C" 0 = ["A"] ∧
        "B" ∈ index.dependents "A" 0 ∧ index.dependents "B" 1 = [] := by
  have hexact := dependents_exact [referencesSample] [.bind "A" 0 3]
  obtain ⟨-, -, hknown, -⟩ := hexact "B" "A" 0
  obtain ⟨hreferences, hdependents⟩ := hknown _ rfl
  obtain ⟨-, -, hmissing, -⟩ := hexact "C" "A" 0
  obtain ⟨hinverse, -⟩ := hexact "A" "B" 0
  obtain ⟨-, -, -, hpast⟩ := hexact "B" "A" 1
  refine ⟨rfl, Nat.le_refl 1, hdependents.trans (by decide), (hmissing _ rfl).2.trans (by decide),
    hinverse.mpr ?_, (hpast (Nat.le_refl 1)).2⟩
  rw [hreferences]
  decide

end Index

end SchemaEvolution

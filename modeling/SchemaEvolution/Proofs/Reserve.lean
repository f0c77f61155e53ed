import SchemaEvolution.Proofs.Sketch

/-!
# Ids for the nodes of one more version

Before the nodes of a version are built, each name gets its place: a new id behind all nodes so
far, or the node of the version after. The nodes for the new ids are then put behind the others,
each under the id that was reserved for it.

## Main definitions

* `Reserved`: what the index knows when all names of a version have their place

## Main results

* `Sketch.exists_reserve`: reserving ids succeeds
* `exists_getElem?_append`, `mem_or_mem_of_getElem?_append`: the nodes under old and new ids
-/

namespace SchemaEvolution

/-! ## Reserving ids -/

/-- **The ids for the nodes of one more version**: the new names get the next ids in order, all
other names share the node of the version after. -/
structure Reserved (version : Nat) (isNew : String → Bool) (names : List String) (next : NodeId)
    (index index' : Index) : Prop where
  shape : index.SameShape index'
  kept : ∀ {name version'}, version' ≠ version ∨ name ∉ names →
    index'.node? name version' = index.node? name version'
  fresh : ∀ {name id}, (name, id) ∈ (names.filter isNew).zipIdx next →
    index'.node? name version = some id
  shared : ∀ {name}, name ∈ names → isNew name = false →
    index'.node? name version = index.node? name (version + 1)

section Reserve

variable {version : Nat} {isNew : String → Bool} {name : String} {names : List String}
  {next id : NodeId} {index index' : Index}

/-- Entering a node leaves those of all other names and versions as they were. -/
theorem Index.node?_store_of_ne (hname : name ∈ index.names version) {other : String}
    {version' : Nat} (hother : version' ≠ version ∨ other ≠ name) :
    (index.store name version id).node? other version' = index.node? other version' := by
  rw [Index.node?_store hname, if_neg]
  rintro ⟨rfl, rfl⟩
  exact hother.elim (· rfl) (· rfl)

namespace Reserved

theorem node?_first (hname : name ∈ index.names version) (hnot : name ∉ names)
    (h : Reserved version isNew names next (index.store name version id) index') :
    index'.node? name version = some id := by
  rw [h.kept (.inr hnot), Index.node?_store hname, if_pos ⟨rfl, rfl⟩]

theorem kept_cons (hname : name ∈ index.names version)
    (h : Reserved version isNew names next (index.store name version id) index') {other : String}
    {version' : Nat} (hother : version' ≠ version ∨ other ∉ name :: names) :
    index'.node? other version' = index.node? other version' := by
  rw [h.kept (hother.imp_right fun hmem hin => hmem (List.mem_cons_of_mem _ hin)),
    Index.node?_store_of_ne hname
      (hother.imp_right fun hmem heq => hmem (heq ▸ List.mem_cons_self))]

theorem cons_new (hname : name ∈ index.names version) (hnot : name ∉ names)
    (hnew : isNew name = true)
    (h : Reserved version isNew names (next + 1) (index.store name version next) index') :
    Reserved version isNew (name :: names) next index index' where
  shape := Index.sameShape_store.trans h.shape
  kept := h.kept_cons hname
  fresh {other id} hmem := by
    rw [List.filter_cons_of_pos hnew, List.zipIdx_cons, List.mem_cons] at hmem
    rcases hmem with heq | hmem
    · obtain ⟨rfl, rfl⟩ := Prod.mk.inj heq
      exact h.node?_first hname hnot
    · exact h.fresh hmem
  shared {other} hother hold := by
    rcases List.mem_cons.mp hother with rfl | hother
    · rw [hnew] at hold
      cases hold
    · rw [h.shared hother hold, Index.node?_store_of_ne hname (.inl (Nat.succ_ne_self version))]

theorem cons_shared (hname : name ∈ index.names version) (hnot : name ∉ names)
    (hold : isNew name = false) (hid : index.node? name (version + 1) = some id)
    (h : Reserved version isNew names next (index.store name version id) index') :
    Reserved version isNew (name :: names) next index index' where
  shape := Index.sameShape_store.trans h.shape
  kept := h.kept_cons hname
  fresh {other id} hmem := by
    rw [List.filter_cons_of_neg (by simp [hold])] at hmem
    exact h.fresh hmem
  shared {other} hother hold := by
    rcases List.mem_cons.mp hother with rfl | hother
    · rw [h.node?_first hname hnot, hid]
    · rw [h.shared hother hold, Index.node?_store_of_ne hname (.inl (Nat.succ_ne_self version))]

theorem exists_fresh (h : Reserved version isNew names next index index') (hname : name ∈ names)
    (hnew : isNew name = true) :
    ∃ id, (name, id) ∈ (names.filter isNew).zipIdx next ∧ index'.node? name version = some id := by
  obtain ⟨place, hplace⟩ := List.mem_iff_getElem?.mp (List.mem_filter.mpr ⟨hname, hnew⟩)
  have hmem : (name, next + place) ∈ (names.filter isNew).zipIdx next :=
    List.mk_add_mem_zipIdx_iff_getElem?.mpr hplace
  exact ⟨_, hmem, h.fresh hmem⟩

end Reserved

/-- **Reserving ids succeeds** where no node is entered yet and the shared ones are. -/
theorem Sketch.exists_reserve (next : NodeId) (hnodup : names.Nodup)
    (hnames : ∀ name ∈ names, name ∈ index.names version)
    (hunbound : ∀ name ∈ names, index.node? name version = none)
    (hshared : ∀ name ∈ names, isNew name = false →
      ∃ id, index.node? name (version + 1) = some id) :
    ∃ index', reserve version isNew names next index =
      .ok ((names.filter isNew).zipIdx next, index') ∧
        Reserved version isNew names next index index' := by
  induction names generalizing next index with
  | nil => exact ⟨index, rfl, .refl index, fun _ => rfl, nofun, nofun⟩
  | cons name rest ih =>
    obtain ⟨hnot, hnodup⟩ := List.nodup_cons.mp hnodup
    obtain ⟨hname, hnames⟩ := List.forall_mem_cons.mp hnames
    obtain ⟨hnone, hunbound⟩ := List.forall_mem_cons.mp hunbound
    obtain ⟨hfirst, hshared⟩ := List.forall_mem_cons.mp hshared
    have hlater : ∀ id next, ∃ index', reserve version isNew rest next
        (index.store name version id) = .ok ((rest.filter isNew).zipIdx next, index') ∧
          Reserved version isNew rest next (index.store name version id) index' := by
      intro id next
      refine ih next hnodup (fun other hother => ?_) (fun other hother => ?_)
        (fun other hother hold => ?_)
      · rw [← Index.sameShape_store.names]
        exact hnames other hother
      · rw [Index.node?_store_of_ne hname (.inr (ne_of_mem_of_not_mem hother hnot))]
        exact hunbound other hother
      · rw [Index.node?_store_of_ne hname (.inl (Nat.succ_ne_self version))]
        exact hshared other hother hold
    cases hnew : isNew name with
    | true =>
      obtain ⟨index', hreserve, h⟩ := hlater next (next + 1)
      refine ⟨index', ?_, h.cons_new hname hnot hnew⟩
      rw [reserve, if_pos hnew, Index.bind_of_fresh hname hnone, ok_bind, hreserve,
        List.filter_cons_of_pos hnew]
      rfl
    | false =>
      obtain ⟨id, hid⟩ := hfirst hnew
      obtain ⟨index', hreserve, h⟩ := hlater id next
      refine ⟨index', ?_, h.cons_shared hname hnot hnew hid⟩
      have hcompute : index.resolve name (version + 1) = .ok id :=
        Index.resolve_eq_ok_iff.mpr hid
      rw [reserve, if_neg (by simp [hnew]),
        Index.resolveOrBind_of_fresh (f := fun _ => index.resolve name (version + 1))
          hname hnone hcompute, ok_bind, hreserve, List.filter_cons_of_neg (by simp [hnew])]

end Reserve

/-! ## The nodes of one version -/

section Arena

variable {α : Type} {xs : List String} {ys : List α} {R : String × NodeId → α → Prop}
  {arena : Array α} {id : NodeId}

/-- A new node is found under the id that was reserved for it. -/
theorem exists_getElem?_append (h : List.Forall₂ R (xs.zipIdx arena.size) ys) {x : String}
    (hx : (x, id) ∈ xs.zipIdx arena.size) :
    ∃ y, (arena ++ ys.toArray)[id]? = some y ∧ R (x, id) y := by
  obtain ⟨hle, hget⟩ := List.mk_mem_zipIdx_iff_le_and_getElem?_sub.mp hx
  have hplace : (xs.zipIdx arena.size)[id - arena.size]? = some (x, id) := by
    rw [List.getElem?_zipIdx, hget, Option.map_some, Nat.add_sub_cancel' hle]
  obtain ⟨y, hy, hxy⟩ := exists_getElem?_right_of_forall₂ h hplace
  refine ⟨y, ?_, hxy⟩
  rw [Array.getElem?_append_right hle, List.getElem?_toArray, hy]

/-- What is found under an id is an old node, or the one that it was reserved for. -/
theorem mem_or_mem_of_getElem?_append (h : List.Forall₂ R (xs.zipIdx arena.size) ys) {y : α}
    (hy : (arena ++ ys.toArray)[id]? = some y) :
    arena[id]? = some y ∨ ∃ x, (x, id) ∈ xs.zipIdx arena.size ∧ R (x, id) y := by
  rcases Nat.lt_or_ge id arena.size with hlt | hle
  · rw [Array.getElem?_append_left hlt] at hy
    exact .inl hy
  · rw [Array.getElem?_append_right hle, List.getElem?_toArray] at hy
    obtain ⟨⟨x, id'⟩, hget, hxy⟩ := exists_getElem?_left_of_forall₂ h hy
    have hplace := hget
    rw [List.getElem?_zipIdx] at hplace
    obtain ⟨x', -, hpair⟩ := Option.map_eq_some_iff.mp hplace
    obtain rfl : id = id' := (Nat.add_sub_cancel' hle).symm.trans (congrArg Prod.snd hpair)
    exact .inr ⟨x, List.mem_of_getElem? hget, hxy⟩

theorem getElem?_append_of_getElem? {y : α} (h : arena[id]? = some y) :
    (arena ++ ys.toArray)[id]? = some y := by
  rw [Array.getElem?_append_left (Array.getElem?_eq_some_iff.mp h).1, h]

end Arena

end SchemaEvolution

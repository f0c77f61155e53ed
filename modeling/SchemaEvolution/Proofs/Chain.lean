import SchemaEvolution.Chain
import SchemaEvolution.Proofs.Maps

/-!
# The first version of a chain

A chain that was found is not empty, and its first version transforms nothing: the walk starts at
the root and only ever adds versions behind it, and the root was checked.

## Main definitions

* `Chain.Sound`: what holds of every chain that was found
* `Chain.ofOrder`: the chain of versions in an order

## Main results

* `Chain.ofDefinition_eq_ok`: what a chain is found by
* `Chain.sound_of_ofDefinition`: finding a chain yields a sound one
* `Chain.ofDefinition_blamesSchema`: finding a chain fails by the fault of the schema only
-/

namespace SchemaEvolution.Chain

/-- **A sound chain** has a first version, which transforms nothing. -/
structure Sound (chain : Chain) : Prop where
  nonempty : 0 < chain.size
  root : ∀ {version}, chain.get? 0 = some version → version.transformations = []

/-- Following only adds versions behind those seen. -/
theorem prefix_follow (declared : Declared) (seen : List String) (last : String) :
    seen <+: follow declared seen last := by
  fun_induction follow declared seen last with
  | case1 => exact List.prefix_rfl
  | case2 => exact List.prefix_rfl
  | case3 seen last name _ _ ih => exact (List.prefix_append seen [name]).trans ih

theorem transformations_root {declared : Declared} {root : String}
    (h : checkRoot declared root = .ok ()) (count index : Nat) :
    (versionAt declared count index root).transformations = [] := by
  unfold checkRoot at h
  unfold versionAt
  split at h
  · simp [*]
  · split at h
    · simp_all
    · cases h

/-- The versions with the given names, in this order. -/
def ofOrder (declared : Declared) (order : List String) : Chain :=
  ⟨order.mapIdx fun index name => versionAt declared order.length index name⟩

/-- **A chain that is found** is the walk from a root that passes all checks, and the walk reaches
every version and ends with the current one. -/
theorem ofDefinition_eq_ok {definition : Definition} {chain : Chain}
    (h : ofDefinition definition = .ok chain) :
    ∃ first, root definition.versions = .ok first ∧
      checkPrevious definition.versions definition.versions.entries = .ok () ∧
      checkNext [] definition.versions.entries = .ok () ∧
      checkRoot definition.versions first = .ok () ∧
      (follow definition.versions [first] first).getLast?.getD "" = definition.currentVersion ∧
      (follow definition.versions [first] first).length = definition.versions.size ∧
      chain = ofOrder definition.versions (follow definition.versions [first] first) := by
  unfold ofDefinition at h
  obtain ⟨⟨⟩, hprevious, h⟩ := bind_eq_ok.mp h
  obtain ⟨first, hfirst, h⟩ := bind_eq_ok.mp h
  obtain ⟨⟨⟩, hnext, h⟩ := bind_eq_ok.mp h
  obtain ⟨⟨⟩, hroot, h⟩ := bind_eq_ok.mp h
  dsimp only at h
  split at h
  · cases h
  · rename_i hends
    obtain rfl := Except.ok.inj h
    simp only [Bool.or_eq_true, bne_iff_ne, ne_eq, not_or, not_not] at hends
    exact ⟨first, hfirst, hprevious, hnext, hroot, hends.1, hends.2, rfl⟩

/-- A version is that of the name at its place. -/
theorem exists_of_get?_ofOrder {declared : Declared} {order : List String} {place : Nat}
    {version : Version} (h : (ofOrder declared order).get? place = some version) :
    ∃ name, order[place]? = some name ∧
      version = versionAt declared order.length place name := by
  rw [ofOrder, get?, List.getElem?_mapIdx, Option.map_eq_some_iff] at h
  obtain ⟨name, hname, hsame⟩ := h
  exact ⟨name, hname, hsame.symm⟩

@[simp] theorem size_ofOrder (declared : Declared) (order : List String) :
    (ofOrder declared order).size = order.length := by
  simp [ofOrder, size]

/-- **A chain that is found is sound.** -/
theorem sound_of_ofDefinition {definition : Definition} {chain : Chain}
    (h : ofDefinition definition = .ok chain) : chain.Sound := by
  obtain ⟨first, -, -, -, hroot, -, -, rfl⟩ := ofDefinition_eq_ok h
  obtain ⟨rest, hrest⟩ := prefix_follow definition.versions [first] first
  refine ⟨?_, fun hversion => ?_⟩
  · rw [size_ofOrder, ← hrest]
    exact Nat.succ_pos _
  · obtain ⟨name, hname, rfl⟩ := exists_of_get?_ofOrder hversion
    rw [← hrest] at hname
    obtain rfl := Option.some.inj hname
    exact transformations_root hroot _ _

/-! ## Blame -/

theorem checkPrevious_blamesSchema (declared : Declared) (entries : List (String × VersionDecl)) :
    BlamesSchema (checkPrevious declared entries) := by
  induction entries with
  | nil => exact .ok ()
  | cons entry rest ih =>
    unfold checkPrevious
    split
    · exact ih
    · split
      · exact ih
      · exact .error rfl

theorem checkNext_blamesSchema (before entries : List (String × VersionDecl)) :
    BlamesSchema (checkNext before entries) := by
  induction entries generalizing before with
  | nil => exact .ok ()
  | cons entry rest ih =>
    unfold checkNext
    split
    · exact ih _
    · split
      · exact .error rfl
      · exact ih _

theorem root_blamesSchema (declared : Declared) : BlamesSchema (root declared) := by
  unfold root
  split
  · exact .error rfl
  · exact .ok _
  · exact .error rfl

theorem checkRoot_blamesSchema (declared : Declared) (root : String) :
    BlamesSchema (checkRoot declared root) := by
  unfold checkRoot
  split
  · exact .ok ()
  · split
    · exact .ok ()
    · exact .error rfl

/-- **Finding a chain fails by the fault of the schema only.** -/
theorem ofDefinition_blamesSchema (definition : Definition) :
    BlamesSchema (ofDefinition definition) := by
  refine (checkPrevious_blamesSchema _ _).bind fun _ _ => ?_
  refine (root_blamesSchema _).bind fun root _ => ?_
  refine (checkNext_blamesSchema _ _).bind fun _ _ => ?_
  refine (checkRoot_blamesSchema _ _).bind fun _ _ => ?_
  dsimp only
  split
  · exact .error rfl
  · exact .ok _

end SchemaEvolution.Chain

import SchemaEvolution.Proofs.Chain

/-!
# The order of a chain

Each version of a chain that was found continues the one before it: the walk goes from a version to
the one that continues it, starting with the version that continues none. The versions are numbered
in this order, and the last one is current.

## Main definitions

* `Chain.Linked`: each version continues the one before

## Main results

* `Chain.isChain_follow`: the walk goes from a version to the one that continues it
* `Chain.linked_of_ofDefinition`: a chain that is found is linked
-/

namespace SchemaEvolution.Chain

/-- **The versions of a chain are linked**: each has its place as its index and continues the one
before, and the last one is current. -/
structure Linked (chain : Chain) : Prop where
  index : ∀ {place version}, chain.get? place = some version → version.index = place
  current : ∀ {place version}, chain.get? place = some version →
    (version.isCurrent = true ↔ place + 1 = chain.size)
  first : ∀ {version}, chain.get? 0 = some version → version.previous = none
  continued : ∀ {place before version}, chain.get? place = some before →
    chain.get? (place + 1) = some version → version.previous = some before.name

variable {declared : Declared} {name before : String}

/-- The version that is found to continue another one does so. -/
theorem exists_of_next? (h : next? declared.entries before = some name) :
    ∃ version, declared.get? name = some version ∧ version.previous = some before := by
  obtain ⟨entry, hfind, rfl⟩ := Option.map_eq_some_iff.mp h
  have hprevious := List.find?_some hfind
  refine ⟨entry.2, OrderedMap.get?_eq_some_iff.mpr (List.mem_of_find?_eq_some hfind), ?_⟩
  exact beq_iff_eq.mp hprevious

/-- The root continues no version. -/
theorem exists_of_root (h : root declared = .ok name) :
    ∃ version, declared.get? name = some version ∧ version.previous = none := by
  unfold root at h
  split at h
  · cases h
  · rename_i found hroots
    obtain rfl := Except.ok.inj h
    have hmem : found ∈ roots declared := by rw [hroots]; exact List.mem_singleton_self found
    obtain ⟨entry, hentry, rfl⟩ := List.mem_map.mp hmem
    obtain ⟨hentry, hnone⟩ := List.mem_filter.mp hentry
    exact ⟨entry.2, OrderedMap.get?_eq_some_iff.mpr hentry, Option.isNone_iff_eq_none.mp hnone⟩
  · cases h

/-- **The walk goes from a version to the one that continues it.** -/
theorem isChain_follow (declared : Declared) (seen : List String) (last : String)
    (h : seen.IsChain fun before name => next? declared.entries before = some name)
    (hlast : seen.getLast? = some last) :
    (follow declared seen last).IsChain fun before name =>
      next? declared.entries before = some name := by
  fun_induction follow declared seen last with
  | case1 => exact h
  | case2 => exact h
  | case3 seen last name hfound hknown ih =>
    refine ih (List.isChain_append.mpr ⟨h, .singleton name, ?_⟩) List.getLast?_concat
    intro before hbefore next hnext
    obtain rfl := Option.some.inj (hlast.symm.trans hbefore)
    obtain rfl := Option.some.inj hnext
    exact hfound

theorem previous_versionAt {version : VersionDecl} (h : declared.get? name = some version)
    (count place : Nat) : (versionAt declared count place name).previous = version.previous := by
  rw [versionAt, h]
  rfl

/-- **A chain that is found is linked.** -/
theorem linked_of_ofDefinition {definition : Definition} {chain : Chain}
    (h : ofDefinition definition = .ok chain) : chain.Linked := by
  obtain ⟨first, hfirst, -, -, -, -, -, rfl⟩ := ofDefinition_eq_ok h
  have hchain := isChain_follow definition.versions [first] first (.singleton first) rfl
  obtain ⟨rest, hrest⟩ := prefix_follow definition.versions [first] first
  generalize follow definition.versions [first] first = order at hchain hrest
  refine ⟨fun hversion => ?_, fun hversion => ?_, fun hversion => ?_, fun hbefore hversion => ?_⟩
  · obtain ⟨name, -, rfl⟩ := exists_of_get?_ofOrder hversion
    rfl
  · obtain ⟨name, -, rfl⟩ := exists_of_get?_ofOrder hversion
    simp [versionAt]
  · obtain ⟨name, hname, rfl⟩ := exists_of_get?_ofOrder hversion
    rw [← hrest] at hname
    obtain rfl := Option.some.inj hname
    obtain ⟨version, hdeclared, hnone⟩ := exists_of_root hfirst
    rw [previous_versionAt hdeclared, hnone]
  · obtain ⟨name, hname, rfl⟩ := exists_of_get?_ofOrder hbefore
    obtain ⟨later, hlater, rfl⟩ := exists_of_get?_ofOrder hversion
    obtain ⟨hlt, hname⟩ := List.getElem?_eq_some_iff.mp hname
    obtain ⟨hlt', hlater⟩ := List.getElem?_eq_some_iff.mp hlater
    have hnext := List.isChain_iff_getElem.mp hchain _ hlt'
    rw [hname, hlater] at hnext
    obtain ⟨version, hdeclared, hprevious⟩ := exists_of_next? hnext
    rw [previous_versionAt hdeclared, hprevious]
    rfl

end SchemaEvolution.Chain

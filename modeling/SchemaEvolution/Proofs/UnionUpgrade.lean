import SchemaEvolution.Proofs.NestedUpgrades

/-!
# Union upgrades dispatch correctly

The upgrade of a union has an arm for each declared member. The number of an arm is the place of the
member, which is the same at every version. A member that does not change behind the version of the
path is passed through, any other is upgraded to its node at the next version. A super type has no
transformations of its own, so it only has a path where one of its members changes.

## Main definitions

* `Compilation.Dispatches`: what a path does with one member
* `Config.choice`: a small schema with a super type

## Main results

* `Compilation.dispatches_of_arm`: an arm dispatches its member
* `Replayed.Sound.exists_affected_member`: a super type only changes with its members
* `Compilation.numbers_members`: members are numbered by their places, at every version
* `Compilation.union_dispatches`: union upgrades dispatch correctly
-/

namespace SchemaEvolution

/-- **A super type only changes with its members.** -/
theorem Replayed.Sound.exists_affected_member {replayed : Replayed} (hr : replayed.Sound) {v : Nat}
    {name : String} (hsuper : replayed.definition.catalog.category? name = some .super)
    (h : replayed.Affected v name) :
    ∃ member ∈ (replayed.definition.superTypes.get? name).getD [], replayed.Affected v member := by
  obtain ⟨target, htarget, hreach⟩ := h
  cases hreach.cases_head with
  | inl hsame =>
    subst hsame
    obtain ⟨stage, hstage, step, hstep, rfl⟩ := htarget
    cases hsuper.symm.trans (hr.checked_transformation hstage hstep).1
  | inr hhead =>
    obtain ⟨member, hmember, hreach⟩ := hhead
    rw [Replayed.referencesAt_super hsuper] at hmember
    exact ⟨member, hmember, target, htarget, hreach⟩

namespace Compilation

variable {c : Compilation} {version : Nat}

/-- **What a path does with one member** of a union, where `changed` are the types that change
behind the version and `next` is the node that the path leads to. -/
structure Dispatches (c : Compilation) (version : Nat) (changed : NameSet) (next : Node)
    (entry : String × Nat) (arm : UnionArm) : Prop where
  member : arm.member = entry.1
  number : entry.2 < 2 ^ 32 → arm.discriminant.toNat = entry.2
  /-- The next node has the member under the same number. -/
  later : ∃ later ∈ next.members, later.name = entry.1
  sameNumber : ∀ later ∈ next.members, later.name = entry.1 → later.discriminant = arm.discriminant
  /-- The arm leads to the node of the member at the next version. -/
  target : ∃ last, c.graph.nodeAt entry.1 (version + 1) = .ok last ∧ arm.target = last.identity
  passThrough_iff : arm.action = .passThrough ↔ entry.1 ∉ changed
  kept : entry.1 ∉ changed → arm.source = arm.target
  upgraded : entry.1 ∈ changed →
    arm.source = ⟨entry.1, some version⟩ ∧ arm.action = .upgrade [arm.target]

/-- The node of a super type at a version, with its members numbered by their places. -/
theorem numbers_members (hc : c.Sound) {name : String} {declared : List String}
    (hdeclared : c.definition.superTypes.get? name = some declared) (hv : version < c.chain.size) :
    ∃ node members, c.graph.nodeAt name version = .ok node ∧ node.kind = .super members ∧
      List.Forall₂ (Member.Matches (c.graph.index.node? · version)) declared.zipIdx members := by
  have hsuper := hc.schema.definition.super.mpr (OrderedMap.mem_of_get? hdeclared)
  obtain ⟨node, hnode, -, -, hrep⟩ :=
    hc.graph.exists_nodeAt hv (Replayed.mem_names_of_category hsuper)
  obtain ⟨members, hkind, hmembers⟩ :=
    hrep.kind.exists_super (Replayed.entry_declared_iff.mpr hsuper)
  have hget : (c.schema.blueprint.definition.superTypes.get? name).getD [] = declared :=
    congrArg (Option.getD · []) hdeclared
  exact ⟨node, members, hnode, hkind, hget ▸ hmembers⟩

/-- Declared members do not repeat, so a member is numbered by its one place. -/
theorem matches_of_name {declared : List String} (hnodup : declared.Nodup)
    {target : String → Option NodeId} {members : List Member}
    (hmembers : List.Forall₂ (Member.Matches target) declared.zipIdx members) {entry : String × Nat}
    (hentry : entry ∈ declared.zipIdx) {member : Member} (hmember : member ∈ members)
    (hname : member.name = entry.1) : member.Matches target entry := by
  obtain ⟨entry', hentry', hmatches⟩ := exists_left_of_forall₂ hmembers hmember
  rw [List.mem_zipIdx_iff_getElem?] at hentry hentry'
  have hplace : entry'.2 = entry.2 := by
    refine (List.getElem?_inj (List.getElem?_eq_some_iff.mp hentry').1 hnodup).mp ?_
    rw [hentry, hentry', ← hmatches.name, hname]
  obtain rfl : entry' = entry := Prod.ext (hmatches.name.symm.trans hname) hplace
  exact hmatches

section Sound

variable (hc : c.Sound)

include hc

/-- **An arm dispatches its member.** -/
theorem dispatches_of_arm {name : String} {declared : List String}
    (hdeclared : c.definition.superTypes.get? name = some declared)
    (hv : version + 1 < c.schema.chain.size) {changed : NameSet}
    (hchanged : ∀ name, name ∈ changed ↔ c.schema.Affected version name) {old next : Node}
    {members : List Member} (hkind : old.kind = .super members)
    (hold : c.graph.nodeAt name version = .ok old)
    (hnext : c.graph.nodeAt name (version + 1) = .ok next) {entry : String × Nat}
    (hentry : entry ∈ declared.zipIdx) {member : Member} (hmember : member ∈ members)
    (hmatches : member.Matches (c.graph.index.node? · version) entry) {arm : UnionArm}
    (harm : (c.schema.derivation c.graph).arm old next member = .ok arm) :
    c.Dispatches version changed next entry arm := by
  obtain ⟨hnumber, hname⟩ := Derivation.arm_named harm
  obtain ⟨first, last, hfirst, hlast, hsource, htarget, haction⟩ :=
    hc.graph.cases_of_arm hc.schema hv hkind hold hnext hmember harm
  obtain ⟨next', members', hnext', hkind', hmembers'⟩ := numbers_members hc hdeclared hv
  obtain rfl := Except.ok.inj (hnext.symm.trans hnext')
  rw [hmatches.name] at hname hfirst hlast haction
  have hmembersNext : next.members = members' := by rw [Node.members, hkind']
  obtain ⟨later, hlater, hlaterMatches⟩ := exists_right_of_forall₂ hmembers' hentry
  exact {
    member := hname
    number := fun hlt => by
      rw [hnumber, hmatches.discriminant, UInt32.toNat_ofNat_of_lt' hlt]
    later := ⟨later, hmembersNext ▸ hlater, hlaterMatches.name⟩
    sameNumber := fun later hlater hlaterName => by
      have hlaterMatches := matches_of_name (hc.schema.definition.member hdeclared).1 hmembers'
        hentry (hmembersNext ▸ hlater) hlaterName
      rw [hlaterMatches.discriminant, hnumber, hmatches.discriminant]
    target := ⟨last, hlast, htarget⟩
    passThrough_iff := by
      rw [hchanged]
      rcases haction with ⟨hstays, -, haction⟩ | ⟨haffected, haction⟩
      · exact iff_of_true haction hstays
      · refine iff_of_false (fun hpass => ?_) (not_not_intro haffected)
        cases hpass.symm.trans haction
    kept := fun hstays => by
      rw [hchanged] at hstays
      obtain ⟨-, rfl, -⟩ := haction.resolve_right fun h => hstays h.1
      rw [hsource, htarget]
    upgraded := fun haffected => by
      rw [hchanged] at haffected
      obtain ⟨-, hupgrade⟩ := haction.resolve_left fun h => h.1 haffected
      have htype : c.schema.IsUpgradable entry.1 :=
        .inl (hmatches.name ▸ hc.graph.base_of_member hc.schema hkind hold hmember)
      obtain ⟨first', label, hfirst', hlabel, hidentity⟩ :=
        hc.graph.exists_nodeAt_labelAt (Nat.lt_of_succ_lt hv) htype.mem_names htype.evolves
      obtain rfl := Except.ok.inj (hfirst.symm.trans hfirst')
      obtain rfl := hlabel.unique (.of_affected (Nat.lt_of_succ_lt hv) haffected)
      exact ⟨hsource.trans hidentity, by rw [hupgrade, htarget]⟩ }

/-- **A union path dispatches all members**, and upgrades at least one. -/
theorem dispatches_of_union {path : UpgradePath} (hpath : path ∈ c.plan.paths)
    {arms : List UnionArm} (hbody : path.body = .union arms) :
    ∃ version next changed declared, path.source = ⟨path.type, some version⟩ ∧
      path.target = next.identity ∧ c.graph.nodeAt path.type (version + 1) = .ok next ∧
      c.graph.changedAt? version = some changed ∧
      c.definition.superTypes.get? path.type = some declared ∧
      List.Forall₂ (c.Dispatches version changed next) declared.zipIdx arms ∧
        ∃ arm ∈ arms, arm.action ≠ .passThrough := by
  obtain ⟨version, old, next, members, hsource, hv, hkind, hold, hnext, harms⟩ :=
    exists_union hc hpath hbody
  obtain ⟨label, label', hconnects⟩ := exists_connects hc hpath
  obtain ⟨htype, hlabel⟩ := Identity.mk.inj (hconnects.source.symm.trans hsource)
  obtain rfl := Option.some.inj hlabel
  rw [← htype] at hold hnext
  obtain ⟨next', later, hnext', hlater, hidentity⟩ :=
    hc.graph.exists_nodeAt_labelAt hv hconnects.type.mem_names hconnects.type.evolves
  obtain rfl := Except.ok.inj (hnext.symm.trans hnext')
  obtain rfl := hlater.unique hconnects.follows
  obtain ⟨changed, hget, hchanged⟩ := exists_changedAt hc (Nat.lt_of_succ_lt hv)
  obtain ⟨-, -, hrep⟩ := hc.graph.represents_of_nodeAt hold
  have hsuper := Replayed.super_of_describes (hkind ▸ hrep.kind)
  obtain ⟨declared, hdeclared⟩ :=
    OrderedMap.exists_get?_of_mem (hc.schema.definition.super.mp hsuper)
  obtain ⟨old', members', hold', hkind', hmembers⟩ :=
    numbers_members hc hdeclared (Nat.lt_of_succ_lt hv)
  obtain rfl := Except.ok.inj (hold.symm.trans hold')
  obtain rfl := NodeKind.super.inj (hkind.symm.trans hkind')
  have hdispatches : List.Forall₂ (c.Dispatches label changed next) declared.zipIdx arms := by
    have hboth := forall₂_of_common hmembers.flip harms
    refine ((List.forall₂_and_left _ _).mpr ⟨fun entry hentry => hentry, hboth⟩).imp ?_
    rintro entry arm ⟨hentry, member, hmember, hmatches, harm⟩
    exact dispatches_of_arm hc hdeclared hv hchanged hkind hold hnext hentry hmember hmatches harm
  refine ⟨label, next, changed, declared, hconnects.source, hconnects.target.trans hidentity.symm,
    hnext, hget, hdeclared, hdispatches, ?_⟩
  obtain ⟨member, hmember, haffected⟩ :=
    hc.schema.exists_affected_member hsuper hconnects.affected
  have hmember : member ∈ declared := by
    have hsame : (c.schema.definition.superTypes.get? path.type).getD [] = declared :=
      congrArg (Option.getD · []) hdeclared
    rwa [hsame] at hmember
  obtain ⟨place, hplace⟩ := List.getElem?_of_mem hmember
  obtain ⟨arm, harm, hdispatch⟩ := exists_right_of_forall₂ hdispatches
    (List.mem_zipIdx_iff_getElem?.mpr hplace : (member, place) ∈ declared.zipIdx)
  exact ⟨arm, harm, fun hpass => hdispatch.passThrough_iff.mp hpass ((hchanged _).mpr haffected)⟩

end Sound

/-- **Union upgrades dispatch correctly.** A union path starts at a version and leads to the node of
its type at the next one. It has one arm for each declared member, in order, with the number of the
member at both versions: a member that does not change is passed through, any other is upgraded in
one step from its label at the version to its node at the next one. At least one member is upgraded.
The members of a super type are numbered in the same way at every version. -/
theorem union_dispatches {config : Config} {workers : Nat} (h : config.compile workers = .ok c) :
    (∀ path ∈ c.plan.paths, ∀ arms, path.body = .union arms →
      ∃ version next changed declared, path.source = ⟨path.type, some version⟩ ∧
        path.target = next.identity ∧ c.graph.nodeAt path.type (version + 1) = .ok next ∧
        c.graph.changedAt? version = some changed ∧
        c.definition.superTypes.get? path.type = some declared ∧
        List.Forall₂ (c.Dispatches version changed next) declared.zipIdx arms ∧
          ∃ arm ∈ arms, arm.action ≠ .passThrough) ∧
    ∀ name declared, c.definition.superTypes.get? name = some declared →
      ∀ version < c.graph.versionCount, ∃ node, c.graph.nodeAt name version = .ok node ∧
        node.members.map (fun member => (member.name, member.discriminant)) =
          declared.zipIdx.map fun entry => (entry.1, UInt32.ofNat entry.2) := by
  have hc := sound_of_compile h
  refine ⟨fun path hpath arms hbody => dispatches_of_union hc hpath hbody,
    fun name declared hdeclared version hv => ?_⟩
  obtain ⟨node, members, hnode, hkind, hmembers⟩ :=
    numbers_members hc hdeclared (hc.graph.versionCount_eq ▸ hv)
  refine ⟨node, hnode, ?_⟩
  rw [Node.members, hkind]
  exact (map_eq_map_of_forall₂ hmembers fun entry member hmatches =>
    Prod.ext hmatches.name.symm hmatches.discriminant.symm).symm

end Compilation

/-! ## A small schema with a super type -/

/-- A schema with a super type of two records, of which one gets a field. -/
def Config.choice : Config where
  currentVersion := "b"
  baseTypes := .ofList [("A", { fields := .ofList [("x", "int")] }),
    ("B", { fields := .ofList [("y", "int")] })]
  superTypes := .ofList [("S", ["B", "A"])]
  versions := .ofList [("a", {}), ("b", { previous := some "a", transformations :=
    [⟨"A", .insert "z" "int" "c.Z" [] none⟩] })]

/-- The upgrade of `S` there. -/
def UpgradePath.choice : UpgradePath where
  type := "S"
  source := ⟨"S", some 0⟩
  target := ⟨"S", some 1⟩
  body := .union [⟨0, "B", ⟨"B", some 1⟩, ⟨"B", some 1⟩, .passThrough⟩,
    ⟨1, "A", ⟨"A", some 0⟩, ⟨"A", some 1⟩, .upgrade [⟨"A", some 1⟩]⟩]

set_option maxRecDepth 20000 in
theorem Config.compile_choice : (Config.choice.compile 1).toOption.map (fun c =>
    (c.definition.superTypes.get? "S", c.graph.versionCount, c.plan.paths.getLast?)) =
    some (some ["B", "A"], 2, some UpgradePath.choice) := by
  cbv

theorem Compilation.union_dispatches_choice : ∃ c changed next node,
    Config.choice.compile 1 = .ok c ∧ UpgradePath.choice ∈ c.plan.paths ∧
      c.graph.changedAt? 0 = some changed ∧ "A" ∈ changed ∧ "B" ∉ changed ∧
        c.graph.nodeAt "S" 1 = .ok next ∧ (∃ later ∈ next.members, later.name = "A") ∧
          c.graph.nodeAt "S" 0 = .ok node ∧
            node.members.map (fun member => (member.name, member.discriminant)) =
              [("B", 0), ("A", 1)] := by
  have hchoice := Config.compile_choice
  obtain ⟨c, hc, hchoice⟩ := Option.map_eq_some_iff.mp hchoice
  have hc := toOption_eq_some_iff.mp hc
  simp only [Prod.mk.injEq] at hchoice
  obtain ⟨hdeclared, hcount, hpath⟩ := hchoice
  have hpath := List.mem_of_getLast? hpath
  obtain ⟨hpaths, hnumbers⟩ := union_dispatches hc
  obtain ⟨version, next, changed, declared, hsource, -, hnext, hchanged, hdeclared', harms, -⟩ :=
    hpaths _ hpath _ rfl
  obtain rfl : 0 = version := Option.some.inj (Identity.mk.inj hsource).2
  obtain rfl := Option.some.inj (hdeclared.symm.trans hdeclared')
  obtain ⟨node, hnode, hmembers⟩ := hnumbers _ _ hdeclared 0 (hcount ▸ Nat.zero_lt_two)
  obtain ⟨hfirst, hrest⟩ := List.forall₂_cons.mp harms
  obtain ⟨hsecond, -⟩ := List.forall₂_cons.mp hrest
  refine ⟨c, changed, next, node, hc, hpath, hchanged, ?_, hfirst.passThrough_iff.mp rfl, hnext,
    hsecond.later, hnode, hmembers⟩
  exact not_not.mp fun hstays => nomatch hsecond.passThrough_iff.mpr hstays

end SchemaEvolution

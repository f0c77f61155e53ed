import SchemaEvolution.Proofs.IndependentTypes
import SchemaEvolution.Proofs.Reordering

/-!
# What a history tells about layouts

A replay leads from the declared layouts to those of the current version, and at each version on
the way it leaves one layout for each base type, with no field twice and no unknown type. It marks
a type as different behind a version by comparing fields in whatever order and by looking at what
the next version targets. The second part alone is exact: a layout changes only when its type is
targeted, and a targeted type is marked even when its fields compare equal.

## Main definitions

* `Layouts.WellFormed catalog types layouts`: one layout for each type, with distinct fields of
  known types

## Main results

* `History.differsFromNext_eq_true_iff`: a type is marked when the next version changes it
* `History.differsFromNext_exact`: the marks are exact
* `Config.layouts_wellFormed`: the layouts of an accepted schema, and what is read from them
-/

namespace SchemaEvolution

/-! ## Marked types -/

namespace History

variable {definition : Definition} {chain : Chain} {history : History} {v : Nat} {type : String}

/-- A mark is that of a layout. -/
theorem exists_of_differsFromNext (hmark : history.differsFromNext v type = true) :
    ∃ stage layout, history.stages[v]? = some stage ∧ stage.layouts.get? type = some layout ∧
      history.differsAfter v type layout = true := by
  unfold differsFromNext at hmark
  cases hsnapshot : history.snapshot? v type with
  | none =>
    rw [hsnapshot] at hmark
    cases hmark
  | some snapshot =>
    rw [hsnapshot] at hmark
    obtain ⟨stage, layout, hstage, hget, rfl⟩ := snapshot?_eq_some_iff.mp hsnapshot
    exact ⟨stage, layout, hstage, hget, hmark⟩

/-- Behind the last stage nothing is marked. -/
theorem exists_next_of_differsAfter {fields : Layout}
    (hmark : history.differsAfter v type fields = true) :
    ∃ after, history.stages[v + 1]? = some after := by
  unfold differsAfter at hmark
  cases hafter : history.stages[v + 1]? with
  | none =>
    rw [hafter] at hmark
    cases hmark
  | some after => exact ⟨after, rfl⟩

variable (h : ofChain definition chain = .ok history)

include h

/-- There is a stage for each version. -/
theorem exists_stage {version : Version} (hversion : chain.get? v = some version) :
    ∃ stage, history.stages[v]? = some stage := by
  have hlt : v < chain.size := (List.getElem?_eq_some_iff.mp hversion).1
  have hsize := size_of_ofChain h
  rw [size, Chain.currentIndex] at hsize
  exact ⟨_, List.getElem?_eq_getElem (by omega)⟩

theorem lt_currentIndex {after : Stage} (hafter : history.stages[v + 1]? = some after) :
    v < chain.currentIndex := by
  have hlt : v + 1 < history.size := (List.getElem?_eq_some_iff.mp hafter).1
  rw [size_of_ofChain h] at hlt
  exact Nat.lt_of_succ_lt_succ hlt

/-- A version changes exactly the types that its transformations target. -/
theorem exists_changed_iff :
    (∃ after, history.stages[v + 1]? = some after ∧ type ∈ after.changed) ↔
      ∃ version, chain.get? (v + 1) = some version ∧
        ∃ step ∈ version.transformations, step.type = type := by
  constructor
  · rintro ⟨after, hafter, hchanged⟩
    obtain ⟨version, -, hversion, -, -, hsteps⟩ := exists_replay h hafter
    exact ⟨version, hversion, hsteps ▸ (mem_changed_iff h hafter).mp hchanged⟩
  · rintro ⟨version, hversion, htargeted⟩
    obtain ⟨after, hafter⟩ := exists_stage h hversion
    obtain ⟨version', -, hversion', -, -, hsteps⟩ := exists_replay h hafter
    obtain rfl := Option.some.inj (hversion'.symm.trans hversion)
    exact ⟨after, hafter, (mem_changed_iff h hafter).mpr (hsteps.symm ▸ htargeted)⟩

/-- A type that the next version changes has a layout. -/
theorem exists_layout_of_mem_changed {after : Stage}
    (hafter : history.stages[v + 1]? = some after) (hchanged : type ∈ after.changed) :
    ∃ layout, history.layout? v type = some layout := by
  obtain ⟨version, before, -, hbefore, hreplay, -⟩ := exists_replay h hafter
  obtain ⟨hchecked, htargets, -⟩ := Layouts.replayFrom_eq_ok hreplay
  obtain ⟨step, hstep, rfl⟩ := ((htargets type).mp hchanged).resolve_right nofun
  obtain ⟨layout, hget⟩ := Layouts.exists_get?_of_checkContext (hchecked step hstep).2
  exact ⟨layout, layout?_eq_some_iff.mpr ⟨before, hbefore, hget⟩⟩

/-- **A type is marked as different behind a version when the next one changes it**, and only
then. -/
theorem differsFromNext_eq_true_iff :
    history.differsFromNext v type = true ↔
      ∃ after, history.stages[v + 1]? = some after ∧ type ∈ after.changed := by
  constructor
  · intro hmark
    obtain ⟨stage, layout, hstage, hget, hdiffers⟩ := exists_of_differsFromNext hmark
    obtain ⟨after, hafter⟩ := exists_next_of_differsAfter hdiffers
    have hlayout := layout?_eq_some_iff.mpr ⟨stage, hstage, hget⟩
    exact ⟨after, hafter, (differsAfter_eq_true_iff h hafter hlayout).mp hdiffers⟩
  · rintro ⟨after, hafter, hchanged⟩
    obtain ⟨layout, hlayout⟩ := exists_layout_of_mem_changed h hafter hchanged
    obtain ⟨stage, hstage, hget⟩ := layout?_eq_some_iff.mp hlayout
    rw [differsFromNext, snapshot?_eq_some_iff.mpr ⟨stage, layout, hstage, hget, rfl⟩]
    exact (differsAfter_eq_true_iff h hafter hlayout).mpr hchanged

/-- The next version has transformations for a type exactly if it changes it. -/
theorem exists_changed_iff_snapshot :
    (∃ after, history.stages[v + 1]? = some after ∧ type ∈ after.changed) ↔
      ∃ snapshot, history.snapshot? (v + 1) type = some snapshot ∧
        snapshot.transformations ≠ [] := by
  constructor
  · rintro ⟨after, hafter, hchanged⟩
    obtain ⟨before, hbefore⟩ := exists_layout_of_mem_changed h hafter hchanged
    obtain ⟨version, -, hversion, -⟩ := exists_replay h hafter
    obtain ⟨layout, hlayout, -⟩ := layout?_succ h hafter hversion hbefore
    obtain ⟨stage, hstage, hget⟩ := layout?_eq_some_iff.mp hlayout
    obtain rfl := Option.some.inj (hafter.symm.trans hstage)
    exact ⟨_, snapshot?_eq_some_iff.mpr ⟨after, layout, hafter, hget, rfl⟩,
      stepsOf_ne_nil_iff.mpr ((mem_changed_iff h hafter).mp hchanged)⟩
  · rintro ⟨snapshot, hsnapshot, htargeted⟩
    obtain ⟨after, layout, hafter, -, rfl⟩ := snapshot?_eq_some_iff.mp hsnapshot
    exact ⟨after, hafter, (mem_changed_iff h hafter).mpr (stepsOf_ne_nil_iff.mp htargeted)⟩

/-- **The marks are exact**, although they come from a comparison that does not see the order of
fields. A type is marked as different behind a version when there is a next version that targets
it, and only then; and a type that is not marked has the very same layout at the next version. -/
theorem differsFromNext_exact (v : Nat) (type : String) :
    (history.differsFromNext v type = true ↔ v ≠ chain.currentIndex ∧
      ∃ version, chain.get? (v + 1) = some version ∧
        ∃ step ∈ version.transformations, step.type = type) ∧
    (history.differsFromNext v type = true ↔
      ∃ changed, history.changedAt? (v + 1) = some changed ∧ type ∈ changed) ∧
    (history.differsFromNext v type = true ↔
      ∃ snapshot, history.snapshot? (v + 1) type = some snapshot ∧
        snapshot.transformations ≠ []) ∧
    (history.differsFromNext v type = false → v < chain.currentIndex →
      type ∈ definition.baseTypes → ∃ layout, history.layout? v type = some layout ∧
        history.layout? (v + 1) type = some layout) := by
  have hmark : history.differsFromNext v type = true ↔ _ := differsFromNext_eq_true_iff h
  refine ⟨?_, ?_, ?_, fun hfalse hv htype => ?_⟩
  · rw [hmark, exists_changed_iff h]
    refine (and_iff_right_of_imp ?_).symm
    rintro ⟨version, hversion, -⟩
    obtain ⟨after, hafter⟩ := exists_stage h hversion
    exact Nat.ne_of_lt (lt_currentIndex h hafter)
  · simp only [hmark, changedAt?, Option.map_eq_some_iff]
    exact ⟨fun ⟨after, hafter, hchanged⟩ => ⟨_, ⟨after, hafter, rfl⟩, hchanged⟩,
      fun ⟨_, ⟨after, hafter, rfl⟩, hchanged⟩ => ⟨after, hafter, hchanged⟩⟩
  · rw [hmark, exists_changed_iff_snapshot h]
  · obtain ⟨layout, hlayout⟩ := exists_layout h htype (Nat.le_of_lt hv)
    obtain ⟨next, hnext⟩ := exists_layout h htype (Nat.succ_le_of_lt hv)
    obtain ⟨after, hafter, -⟩ := layout?_eq_some_iff.mp hnext
    have hname : type ∉ after.changed := fun hchanged => by
      rw [hmark.mpr ⟨after, hafter, hchanged⟩] at hfalse
      cases hfalse
    exact ⟨layout, hlayout, (layout?_succ_of_not_mem_changed h hafter hname).trans hlayout⟩

end History

/-- In the sample `A` is marked although it is converted to the type that it has, and then it is
not marked, and stays as it is. -/
theorem History.differsFromNext_exact_revised : ∃ replayed,
    Config.revised.replay = .ok replayed ∧ "A" ∈ replayed.definition.baseTypes ∧
      replayed.history.differsFromNext 0 "A" = true ∧
      replayed.history.differsFromNext 1 "A" = false ∧
      ∃ layout, replayed.history.layout? 1 "A" = some layout ∧
        replayed.history.layout? 2 "A" = some layout := by
  obtain ⟨replayed, -, second, third, hreplay, hcurrent, -, hstage, hstage', hsecond, hthird⟩ :=
    Config.exists_replay_revised
  have hr := Replayed.sound_of_replay hreplay
  obtain ⟨version, -, hversion, -, -, hsteps⟩ := hr.exists_replay hstage
  obtain ⟨version', -, hversion', -, -, hsteps'⟩ := hr.exists_replay hstage'
  have hconverting : Step.converting ∈ second.transformations := by simp [hsecond]
  have hbase : "A" ∈ replayed.definition.baseTypes :=
    hr.definition.base.mp (hr.checked_transformation hstage hconverting).1
  obtain ⟨hmarked, -⟩ := History.differsFromNext_exact hr.ofChain_eq_ok 0 "A"
  obtain ⟨hmarked', -, -, hkept⟩ := History.differsFromNext_exact hr.ofChain_eq_ok 1 "A"
  have hfalse : replayed.history.differsFromNext 1 "A" = false := by
    rw [← Bool.not_eq_true, hmarked']
    rintro ⟨-, found, hfound, step, hstep, hname⟩
    obtain rfl := Option.some.inj (hversion'.symm.trans hfound)
    rw [← hsteps', hthird, List.mem_singleton] at hstep
    subst hstep
    revert hname
    decide
  exact ⟨replayed, hreplay, hbase,
    hmarked.mpr ⟨by omega, version, hversion, .converting, hsteps ▸ hconverting, rfl⟩,
    hfalse, hkept hfalse (by omega) hbase⟩

/-! ## The layouts of an accepted schema -/

/-- **One layout for each of the types**, in their order, each with distinct fields of known
types. -/
structure Layouts.WellFormed (catalog : Catalog) (types : List String) (layouts : Layouts) :
    Prop where
  /-- There is a layout for each type, and for no other. -/
  keys : layouts.keys = types
  /-- No layout has a field twice. -/
  distinct : ∀ layout ∈ layouts.values, layout.keys.Nodup
  /-- The types of all fields are declared or native. -/
  known : layouts.Known catalog

namespace Config

variable {config : Config} {replayed : Replayed}

/-- An accepted schema has its base types in the order in which they are written. -/
theorem keys_baseTypes (h : config.replay = .ok replayed) :
    replayed.definition.baseTypes.keys = config.baseTypes.keys := by
  obtain ⟨definition, hdefinition, h⟩ := bind_eq_ok.mp h
  obtain ⟨chain, -, h⟩ := bind_eq_ok.mp h
  obtain ⟨history, -, h⟩ := bind_eq_ok.mp h
  obtain rfl := Except.ok.inj h
  exact OrderedMap.keys_of_traverse (Definition.ofConfig_eq_ok_iff.mp hdefinition).baseTypes

/-- **The layouts of an accepted schema are well-formed** at every version, one for each declared
base type in the order of the declaration. What a transformation reads is a field of its type at
the version before, whatever the transformations in front of it have done to that field. -/
theorem layouts_wellFormed (h : config.replay = .ok replayed) :
    (∀ v < replayed.chain.size, ∃ stage, replayed.history.stages[v]? = some stage ∧
      stage.layouts.WellFormed replayed.definition.catalog config.baseTypes.keys) ∧
    ∀ v version, replayed.chain.get? v = some version → ∀ step ∈ version.transformations,
      ∃ w layout, v = w + 1 ∧ replayed.history.layout? w step.type = some layout ∧
        ∀ field ∈ step.change.context, field ∈ layout := by
  have hr := Replayed.sound_of_replay h
  constructor
  · intro v hv
    obtain ⟨stage, hstage⟩ := hr.exists_stage hv
    refine ⟨stage, hstage, ?_, fun layout _ => layout.distinct,
      History.known_layouts hr.ofChain_eq_ok hr.definition hstage⟩
    rw [hr.keys_layouts hstage, keys_baseTypes h]
  · intro v version hversion step hstep
    cases v with
    | zero =>
      rw [hr.chain.root hversion] at hstep
      cases hstep
    | succ w =>
      have hv : w + 1 < replayed.chain.size := (List.getElem?_eq_some_iff.mp hversion).1
      obtain ⟨after, hafter⟩ := hr.exists_stage hv
      rw [← hr.transformations_stage hafter hversion] at hstep
      obtain ⟨hbase, -⟩ := hr.checked_transformation hafter hstep
      obtain ⟨layout, hlayout⟩ := hr.exists_layout (Nat.lt_of_succ_lt hv) hbase
      exact ⟨w, layout, rfl, hlayout, hr.mem_layout_of_context hafter hstep hlayout⟩

/-- In the sample a field is dropped before it is read, and it is a field of the version before. -/
theorem layouts_wellFormed_revised : ∃ replayed stage layout,
    Config.revised.replay = .ok replayed ∧ replayed.history.stages[1]? = some stage ∧
      stage.transformations = [.removing, .converting, .inserting] ∧
      stage.layouts.WellFormed replayed.definition.catalog ["A", "B"] ∧
      replayed.history.layout? 0 "B" = some layout ∧ "n" ∈ layout := by
  obtain ⟨replayed, -, second, -, hreplay, -, -, hstage, -, hsecond, -⟩ :=
    Config.exists_replay_revised
  have hr := Replayed.sound_of_replay hreplay
  obtain ⟨version, -, hversion, -, -, hsteps⟩ := hr.exists_replay hstage
  obtain ⟨hwellFormed, hcontext⟩ := layouts_wellFormed hreplay
  obtain ⟨stage, hstage', hlayouts⟩ := hwellFormed 1 (hr.lt_size_of_stage hstage)
  obtain rfl := Option.some.inj (hstage.symm.trans hstage')
  obtain ⟨w, layout, hw, hlayout, hread⟩ := hcontext 1 version hversion .inserting (by
    rw [← hsteps, hsecond]
    simp)
  obtain rfl : w = 0 := by omega
  exact ⟨replayed, second, layout, hreplay, hstage, hsecond, hlayouts, hlayout,
    hread "n" (List.mem_singleton_self _)⟩

end Config

end SchemaEvolution

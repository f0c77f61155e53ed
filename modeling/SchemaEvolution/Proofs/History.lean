import SchemaEvolution.Compilation
import SchemaEvolution.Proofs.Chain
import SchemaEvolution.Proofs.Change
import SchemaEvolution.Proofs.Definition

/-!
# The layouts of all versions

Replaying a version checks each of its transformations against the catalog and the layouts before
it, and runs the transformations of each type on the layout of that type alone. So at every
version there is exactly one layout for each base type, all types in it are known, and a type
that no transformation targets keeps its layout.

## Main definitions

* `stepsOf type steps`: the transformations of one type
* `Layout.run`: transformations of one type, one after the other, on its layout
* `Layouts.Known`: layouts whose fields all have known types
* `History.Sound`: every stage but the first is the replay of a version on the one before
* `Replayed.Sound`: a sound definition with a sound chain and a sound history

## Main results

* `Layouts.replayFrom_eq_ok`: what a replay has checked and what it yields
* `Layouts.get?_replay`: what becomes of the layout of one type
* `History.ofChain_eq_ok_iff`: the history of a chain is the sound one
* `History.exists_replay`, `History.keys_layouts`, `History.known_layouts`,
  `History.layout?_succ`, `History.differsAfter_eq_true_iff`: the stages of a history, for every
  schema and chain
* `Replayed.sound_of_replay`: the history of an accepted schema is sound
* `Replayed.Sound.layout?_isSome_iff`, `Replayed.Sound.knows_layout`,
  `Replayed.Sound.mem_changed_iff`, `Replayed.Sound.layout?_succ`: the layouts of a sound history
* `Replayed.Sound.layout?_succ_of_not_mem_changed`: what is not targeted does not change
-/

namespace SchemaEvolution

/-! ## One type -/

/-- The transformations of one type, in their order. -/
abbrev stepsOf (type : String) (steps : List Step) : List Step :=
  steps.filter fun step => step.type == type

section Steps

variable {steps : List Step} {step : Step} {type : String}

theorem stepsOf_cons_self : stepsOf step.type (step :: steps) = step :: stepsOf step.type steps :=
  List.filter_cons_of_pos (p := fun other : Step => other.type == step.type) (beq_self_eq_true _)

theorem stepsOf_cons_of_ne (h : step.type ≠ type) :
    stepsOf type (step :: steps) = stepsOf type steps :=
  List.filter_cons_of_neg (p := fun other : Step => other.type == type) (by simpa using h)

theorem stepsOf_ne_nil_iff : stepsOf type steps ≠ [] ↔ ∃ step ∈ steps, step.type = type := by
  simp

end Steps

/-- **The transformations of one type**, one after the other, on its layout. -/
def Layout.run (version : String) : List Step → Layout → Except SchemaError Layout
  | [], layout => .ok layout
  | step :: steps, layout => do
    let layout ← layout.apply ⟨step.type, version⟩ step.change
    run version steps layout

/-- A run brings in no types but those that its transformations introduce. -/
theorem Layout.values_run {version : String} {steps : List Step} {layout out : Layout}
    (h : layout.run version steps = .ok out) {ref : TypeRef} (href : ref ∈ out.values) :
    ref ∈ layout.values ∨ ∃ step ∈ steps, step.change.introduced? = some ref := by
  induction steps generalizing layout with
  | nil =>
    obtain rfl := Except.ok.inj h
    exact .inl href
  | cons step rest ih =>
    obtain ⟨middle, happly, h⟩ := bind_eq_ok.mp h
    rcases ih h with hmiddle | ⟨later, hlater, hintro⟩
    · rcases values_apply happly hmiddle with hold | hintro
      · exact .inl hold
      · exact .inr ⟨step, List.mem_cons_self, hintro⟩
    · exact .inr ⟨later, List.mem_cons_of_mem _ hlater, hintro⟩

/-! ## One version -/

namespace Layouts

variable {catalog : Catalog} {version : String} {previous : Layouts} {step : Step}

theorem checkStep_eq_ok (h : checkStep catalog version step = .ok ()) :
    catalog.category? step.type = some .base ∧
      ∀ ref, step.change.introduced? = some ref → catalog.Knows ref := by
  unfold checkStep at h
  split at h
  · refine ⟨‹_›, fun ref href => ?_⟩
    rw [href] at h
    dsimp only at h
    split at h
    · assumption
    · cases h
  · cases h
  · cases h

theorem checkContext_eq_ok (h : checkContext previous version step = .ok ()) {layout : Layout}
    (hget : previous.get? step.type = some layout) :
    ∀ field ∈ step.change.context, field ∈ layout := by
  unfold checkContext at h
  rw [hget] at h
  dsimp only at h
  split at h
  · cases h
  · rename_i hnone
    intro field hfield
    simpa using List.find?_eq_none.mp hnone field hfield

theorem applyStep_eq_ok {working out : Layouts} (h : applyStep version step working = .ok out) :
    ∃ layout layout', working.get? step.type = some layout ∧
      layout.apply ⟨step.type, version⟩ step.change = .ok layout' ∧
      out = working.replace step.type layout' := by
  unfold applyStep at h
  split at h
  · cases h
  · rename_i layout hget
    obtain ⟨layout', happly, h⟩ := bind_eq_ok.mp h
    exact ⟨layout, layout', hget, happly, (Except.ok.inj h).symm⟩

/-- **What a replay has checked and what it yields**: each type goes through its own
transformations. -/
theorem replayFrom_eq_ok {steps : List Step} {working out : Layouts} {changed changed' : NameSet}
    (h : replayFrom catalog version previous steps (working, changed) = .ok (out, changed')) :
    (∀ step ∈ steps, checkStep catalog version step = .ok () ∧
      checkContext previous version step = .ok ()) ∧
    (∀ name, name ∈ changed' ↔ (∃ step ∈ steps, step.type = name) ∨ name ∈ changed) ∧
    out.keys = working.keys ∧
    ∀ name layout, working.get? name = some layout → ∃ layout', out.get? name = some layout' ∧
      layout.run version (stepsOf name steps) = .ok layout' := by
  induction steps generalizing working changed with
  | nil =>
    obtain ⟨rfl, rfl⟩ := Prod.mk.inj (Except.ok.inj h)
    exact ⟨nofun, by simp, rfl, fun name layout hget => ⟨layout, hget, rfl⟩⟩
  | cons step rest ih =>
    obtain ⟨⟨⟩, hstep, h⟩ := bind_eq_ok.mp h
    obtain ⟨⟨⟩, hcontext, h⟩ := bind_eq_ok.mp h
    obtain ⟨middle, hmiddle, h⟩ := bind_eq_ok.mp h
    obtain ⟨before, after, hbefore, happly, rfl⟩ := applyStep_eq_ok hmiddle
    obtain ⟨hchecked, hchanged, hkeys, hrun⟩ := ih h
    refine ⟨List.forall_mem_cons.mpr ⟨⟨hstep, hcontext⟩, hchecked⟩, fun name => ?_, ?_, ?_⟩
    · have hadd : name ∈ NameSet.add changed step.type ↔ name = step.type ∨ name ∈ changed :=
        SortedMap.mem_keys_insert
      rw [hchanged, hadd]
      simp only [List.mem_cons, or_and_right, exists_or, exists_eq_left, eq_comm (a := name)]
      exact or_left_comm.trans or_assoc.symm
    · rw [hkeys, OrderedMap.keys_replace]
    · intro name layout hget
      by_cases hname : step.type = name
      · subst hname
        obtain rfl : before = layout := Option.some.inj (hbefore.symm.trans hget)
        have hreplaced : (working.replace step.type after).get? step.type = some after := by
          rw [OrderedMap.get?_replace, if_pos rfl, hget]
          rfl
        obtain ⟨layout', hout, hlater⟩ := hrun _ _ hreplaced
        refine ⟨layout', hout, ?_⟩
        rw [stepsOf_cons_self]
        exact bind_eq_ok.mpr ⟨after, happly, hlater⟩
      · have hkept : (working.replace step.type after).get? name = some layout := by
          rw [OrderedMap.get?_replace, if_neg (Ne.symm hname), hget]
        rw [stepsOf_cons_of_ne hname]
        exact hrun _ _ hkept

section Replay

variable {steps : List Step} {out : Layouts} {changed : NameSet} {type : String}
  (h : replay catalog version previous steps = .ok (out, changed))

include h

theorem keys_replay : out.keys = previous.keys :=
  (replayFrom_eq_ok h).2.2.1

theorem mem_changed_replay_iff : type ∈ changed ↔ ∃ step ∈ steps, step.type = type := by
  obtain ⟨-, hchanged, -⟩ := replayFrom_eq_ok h
  rw [hchanged]
  exact or_iff_left nofun

/-- **What becomes of the layout of one type** is up to the transformations of that type. -/
theorem get?_replay : out.get? type = (previous.get? type).bind fun layout =>
    (layout.run version (stepsOf type steps)).toOption := by
  obtain ⟨-, -, hkeys, hrun⟩ := replayFrom_eq_ok h
  cases hget : previous.get? type with
  | none =>
    rw [← Option.not_isSome_iff_eq_none, OrderedMap.get?_isSome_iff] at hget
    rw [Option.bind_none, ← Option.not_isSome_iff_eq_none, OrderedMap.get?_isSome_iff,
      OrderedMap.mem_iff_mem_keys, hkeys]
    exact hget
  | some layout =>
    obtain ⟨layout', hout, hlayout⟩ := hrun type layout hget
    rw [hout, Option.bind_some, toOption_eq_some_iff.mpr hlayout]

/-- A type that no transformation targets keeps its layout. -/
theorem get?_replay_of_not_mem (htype : type ∉ changed) : out.get? type = previous.get? type := by
  rw [mem_changed_replay_iff h, ← stepsOf_ne_nil_iff, not_ne_iff] at htype
  rw [get?_replay h, htype]
  exact Option.bind_fun_some _

end Replay

/-- All types in the layouts are declared or native. -/
def Known (catalog : Catalog) (layouts : Layouts) : Prop :=
  ∀ layout ∈ layouts.values, ∀ ref ∈ layout.values, catalog.Knows ref

/-- **A replay brings in no unknown types.** -/
theorem Known.replay (hknown : previous.Known catalog) {steps : List Step} {out : Layouts}
    {changed : NameSet}
    (h : Layouts.replay catalog version previous steps = .ok (out, changed)) :
    out.Known catalog := by
  obtain ⟨hchecked, -, hkeys, hrun⟩ := replayFrom_eq_ok h
  intro layout hlayout ref href
  obtain ⟨⟨name, layout⟩, hentry, rfl⟩ := List.mem_map.mp hlayout
  have hget := OrderedMap.get?_eq_some_iff.mpr hentry
  have hname : name ∈ previous := by
    rw [OrderedMap.mem_iff_mem_keys, ← hkeys]
    exact OrderedMap.mem_of_get? hget
  obtain ⟨before, hbefore⟩ := OrderedMap.exists_get?_of_mem hname
  obtain ⟨layout', hget', hlayout'⟩ := hrun name before hbefore
  obtain rfl := Option.some.inj (hget'.symm.trans hget)
  -- what is new in a layout was introduced by a step, which is checked
  rcases Layout.values_run hlayout' href with hold | ⟨step, hstep, hintro⟩
  · exact hknown before (OrderedMap.mem_values_of_get? hbefore) ref hold
  · exact (checkStep_eq_ok (hchecked step (List.mem_filter.mp hstep).1).1).2 ref hintro

/-! ### Blame -/

theorem checkStep_blamesSchema : BlamesSchema (checkStep catalog version step) := by
  unfold checkStep
  split
  · split
    · exact .ok ()
    · split
      · exact .ok ()
      · exact .error rfl
  · exact .error rfl
  · exact .error rfl

/-- A base type has a layout, so a replay fails by the fault of the schema only. -/
theorem replayFrom_blamesSchema {steps : List Step} {working : Layouts} {changed : NameSet}
    (hprevious : ∀ name, catalog.category? name = some .base → name ∈ previous)
    (hworking : ∀ name, catalog.category? name = some .base → name ∈ working) :
    BlamesSchema (replayFrom catalog version previous steps (working, changed)) := by
  induction steps generalizing working changed with
  | nil => exact .ok _
  | cons step rest ih =>
    refine checkStep_blamesSchema.bind fun _ hstep => ?_
    obtain ⟨hbase, -⟩ := checkStep_eq_ok hstep
    obtain ⟨before, hbefore⟩ := OrderedMap.exists_get?_of_mem (hprevious _ hbase)
    obtain ⟨layout, hlayout⟩ := OrderedMap.exists_get?_of_mem (hworking _ hbase)
    have hcontext : BlamesSchema (checkContext previous version step) := by
      unfold checkContext
      rw [hbefore]
      dsimp only
      split
      · exact .error rfl
      · exact .ok ()
    have happly : BlamesSchema (applyStep version step working) := by
      unfold applyStep
      rw [hlayout]
      exact (Layout.apply_blamesSchema _ _ _).bind fun _ _ => .ok _
    refine hcontext.bind fun _ _ => happly.bind fun out hout => ih fun name hname => ?_
    obtain ⟨_, _, _, _, rfl⟩ := applyStep_eq_ok hout
    rw [OrderedMap.mem_iff_mem_keys, OrderedMap.keys_replace]
    exact hworking name hname

end Layouts

/-! ## All versions -/

namespace History

theorem layout?_eq_some_iff {history : History} {v : Nat} {name : String} {layout : Layout} :
    history.layout? v name = some layout ↔
      ∃ stage, history.stages[v]? = some stage ∧ stage.layouts.get? name = some layout :=
  Option.bind_eq_some_iff

theorem snapshot?_eq_some_iff {history : History} {v : Nat} {name : String} {snapshot : Snapshot} :
    history.snapshot? v name = some snapshot ↔
      ∃ stage layout, history.stages[v]? = some stage ∧ stage.layouts.get? name = some layout ∧
        history.snapshotOf v stage name layout = snapshot := by
  simp only [snapshot?, Option.bind_eq_bind, Option.bind_eq_some_iff, Option.pure_def,
    Option.some.injEq]
  constructor
  · rintro ⟨stage, hstage, layout, hget, h⟩
    exact ⟨stage, layout, hstage, hget, h⟩
  · rintro ⟨stage, layout, hstage, hget, h⟩
    exact ⟨stage, hstage, layout, hget, h⟩

/-- **A sound history**: the first stage is the declaration, and each stage behind it is the
replay of its version on the stage before. -/
structure Sound (definition : Definition) (chain : Chain) (history : History) : Prop where
  size : history.size = chain.size
  first : ∃ stage, history.stages[0]? = some stage ∧ stage.layouts = initialLayouts definition ∧
    stage.changed = ∅ ∧ stage.transformations = []
  next : ∀ {v version before after}, chain.get? (v + 1) = some version →
    history.stages[v]? = some before → history.stages[v + 1]? = some after →
    Layouts.replay definition.catalog version.name before.layouts version.transformations =
      .ok (after.layouts, after.changed) ∧ after.transformations = version.transformations

/-- **The stages behind a given one** are the replays of the versions, each on the stage before. -/
theorem stagesFrom_eq_ok_iff {catalog : Catalog} {start : Stage} {versions : List Version}
    {stages : List Stage} : stagesFrom catalog start.layouts versions = .ok stages ↔
      stages.length = versions.length ∧
        ∀ {v : Nat} {version : Version} {before after : Stage}, versions[v]? = some version →
        (start :: stages)[v]? = some before → stages[v]? = some after →
        Layouts.replay catalog version.name before.layouts version.transformations =
          .ok (after.layouts, after.changed) ∧ after.transformations = version.transformations := by
  induction versions generalizing start stages with
  | nil =>
    constructor
    · intro h
      obtain rfl := Except.ok.inj h
      exact ⟨rfl, by simp⟩
    · rintro ⟨hlength, -⟩
      rw [List.eq_nil_of_length_eq_zero hlength]
      rfl
  | cons version rest ih =>
    constructor
    · intro h
      obtain ⟨⟨layouts, changed⟩, hreplay, h⟩ := bind_eq_ok.mp h
      obtain ⟨later, hlater, h⟩ := bind_eq_ok.mp h
      obtain rfl := Except.ok.inj h
      obtain ⟨hlength, hnext⟩ :=
        (@ih ⟨layouts, changed, version.transformations⟩ later).mp hlater
      refine ⟨congrArg (· + 1) hlength, ?_⟩
      intro v version' before after hversion hbefore hafter
      cases v with
      | zero =>
        obtain rfl := Option.some.inj hversion
        obtain rfl := Option.some.inj hbefore
        obtain rfl := Option.some.inj hafter
        exact ⟨hreplay, rfl⟩
      | succ v => exact hnext hversion hbefore hafter
    · rintro ⟨hlength, hnext⟩
      cases stages with
      | nil => cases hlength
      | cons first later =>
        obtain ⟨hreplay, hsteps⟩ := @hnext 0 version start first rfl rfl rfl
        have hlater : stagesFrom catalog first.layouts rest = .ok later :=
          ih.mpr ⟨Nat.succ.inj hlength, fun {v _ _ _} hversion hbefore hafter =>
            @hnext (v + 1) _ _ _ hversion hbefore hafter⟩
        refine bind_eq_ok.mpr ⟨_, hreplay, bind_eq_ok.mpr ⟨later, hlater, ?_⟩⟩
        rw [← hsteps]
        rfl

/-- **The history of a sound chain** is the one that is sound. -/
theorem ofChain_eq_ok_iff {definition : Definition} {chain : Chain} {history : History}
    (hchain : chain.Sound) :
    ofChain definition chain = .ok history ↔ history.Sound definition chain := by
  obtain ⟨versions⟩ := chain
  obtain ⟨root, later, rfl⟩ := List.exists_cons_of_length_pos hchain.nonempty
  have hroot : root.transformations = [] := hchain.root rfl
  constructor
  · intro h
    obtain ⟨stages, hstages, h⟩ := bind_eq_ok.mp h
    obtain rfl := Except.ok.inj h
    obtain ⟨hlength, hnext⟩ := (@stagesFrom_eq_ok_iff _
      ⟨initialLayouts definition, ∅, root.transformations⟩ later stages).mp hstages
    refine ⟨congrArg (· + 1) hlength, ⟨_, rfl, rfl, rfl, hroot⟩, ?_⟩
    intro v version before after hversion hbefore hafter
    exact hnext hversion hbefore hafter
  · intro h
    obtain ⟨stages⟩ := history
    obtain ⟨⟨layouts, changed, transformations⟩, hfirst, rfl, rfl, rfl⟩ := h.first
    cases stages with
    | nil => cases hfirst
    | cons first stages =>
      obtain rfl := Option.some.inj hfirst
      have hstages : stagesFrom definition.catalog (initialLayouts definition) later =
          .ok stages :=
        (@stagesFrom_eq_ok_iff _ ⟨initialLayouts definition, ∅, []⟩ later stages).mpr
          ⟨Nat.succ.inj h.size, fun hversion hbefore hafter => h.next hversion hbefore hafter⟩
      refine bind_eq_ok.mpr ⟨stages, hstages, ?_⟩
      show Except.ok (History.mk
        (⟨initialLayouts definition, ∅, root.transformations⟩ :: stages)) = _
      rw [hroot]

/-! ### The layouts of a replayed history -/

theorem known_initialLayouts {definition : Definition} (hdefinition : definition.Sound) :
    (initialLayouts definition).Known definition.catalog := by
  intro layout hlayout
  obtain ⟨⟨name, layout⟩, hentry, rfl⟩ := List.mem_map.mp hlayout
  have hget := OrderedMap.get?_eq_some_iff.mpr hentry
  rw [initialLayouts, OrderedMap.get?_map] at hget
  obtain ⟨declared, hdeclared, rfl⟩ := Option.map_eq_some_iff.mp hget
  exact hdefinition.field hdeclared

section Layouts

variable {definition : Definition} {chain : Chain} {history : History} {v : Nat} {name : String}
  (h : ofChain definition chain = .ok history)

include h

/-- The first stage is the declaration, and those behind it are replayed on it. -/
theorem exists_stages_of_ofChain :
    ∃ first later, history.stages = first :: later ∧ first.layouts = initialLayouts definition ∧
      stagesFrom definition.catalog first.layouts chain.versions.tail = .ok later := by
  obtain ⟨later, hlater, h⟩ := bind_eq_ok.mp h
  obtain rfl := Except.ok.inj h
  exact ⟨_, later, rfl, rfl, hlater⟩

/-- A history goes as far as the current version. -/
theorem size_of_ofChain : history.size = chain.currentIndex + 1 := by
  obtain ⟨first, later, hstages, -, hlater⟩ := exists_stages_of_ofChain h
  obtain ⟨hlength, -⟩ := stagesFrom_eq_ok_iff.mp hlater
  rw [size, hstages, List.length_cons, hlength, List.length_tail, Chain.currentIndex, Chain.size]

/-- **Each stage behind the first** is the replay of a version on the one before. -/
theorem exists_replay {after : Stage} (hafter : history.stages[v + 1]? = some after) :
    ∃ version before, chain.get? (v + 1) = some version ∧ history.stages[v]? = some before ∧
      Layouts.replay definition.catalog version.name before.layouts version.transformations =
        .ok (after.layouts, after.changed) ∧
      after.transformations = version.transformations := by
  obtain ⟨first, later, hstages, -, hlater⟩ := exists_stages_of_ofChain h
  obtain ⟨hlength, hnext⟩ := stagesFrom_eq_ok_iff.mp hlater
  rw [hstages] at hafter ⊢
  obtain ⟨hv, -⟩ := List.getElem?_eq_some_iff.mp hafter
  have hbefore := List.getElem?_eq_getElem (Nat.lt_of_succ_lt hv)
  have hversion := List.getElem?_eq_getElem (hlength ▸ Nat.lt_of_succ_lt_succ hv)
  refine ⟨_, _, ?_, hbefore, hnext hversion hbefore hafter⟩
  rwa [List.getElem?_tail] at hversion

/-- **Every version has a layout for each base type**, in the order of their declaration. -/
theorem keys_layouts {stage : Stage} (hstage : history.stages[v]? = some stage) :
    stage.layouts.keys = definition.baseTypes.keys := by
  induction v generalizing stage with
  | zero =>
    obtain ⟨first, later, hstages, hlayouts, -⟩ := exists_stages_of_ofChain h
    rw [hstages] at hstage
    obtain rfl := Option.some.inj hstage
    rw [hlayouts, initialLayouts, OrderedMap.keys_map]
  | succ v ih =>
    obtain ⟨version, before, -, hbefore, hreplay, -⟩ := exists_replay h hstage
    rw [Layouts.keys_replay hreplay, ih hbefore]

/-- **All types are known at every version** of a schema whose references are resolved. -/
theorem known_layouts (hdefinition : definition.Sound) {stage : Stage}
    (hstage : history.stages[v]? = some stage) : stage.layouts.Known definition.catalog := by
  induction v generalizing stage with
  | zero =>
    obtain ⟨first, later, hstages, hlayouts, -⟩ := exists_stages_of_ofChain h
    rw [hstages] at hstage
    obtain rfl := Option.some.inj hstage
    rw [hlayouts]
    exact known_initialLayouts hdefinition
  | succ v ih =>
    obtain ⟨version, before, -, hbefore, hreplay, -⟩ := exists_replay h hstage
    exact (ih hbefore).replay hreplay

theorem exists_layout (hname : name ∈ definition.baseTypes) (hv : v ≤ chain.currentIndex) :
    ∃ layout, history.layout? v name = some layout := by
  have hsize : v < history.stages.length := Nat.lt_of_le_of_lt hv
    (Nat.lt_of_lt_of_eq (Nat.lt_succ_self _) (size_of_ofChain h).symm)
  have hstage := List.getElem?_eq_getElem hsize
  have hmem : name ∈ (history.stages[v]).layouts := by
    rw [OrderedMap.mem_iff_mem_keys, keys_layouts h hstage]
    exact hname
  obtain ⟨layout, hget⟩ := OrderedMap.exists_get?_of_mem hmem
  exact ⟨layout, layout?_eq_some_iff.mpr ⟨_, hstage, hget⟩⟩

/-- The types that a version behind the first changes are the targets of its transformations. -/
theorem mem_changed_iff {after : Stage} (hafter : history.stages[v + 1]? = some after) :
    name ∈ after.changed ↔ ∃ step ∈ after.transformations, step.type = name := by
  obtain ⟨version, before, -, -, hreplay, hsteps⟩ := exists_replay h hafter
  rw [Layouts.mem_changed_replay_iff hreplay, hsteps]

/-- **The layout of a type at the next version** comes from its own transformations. -/
theorem layout?_succ {after : Stage} {version : Version}
    (hafter : history.stages[v + 1]? = some after)
    (hversion : chain.get? (v + 1) = some version) {layout : Layout}
    (hlayout : history.layout? v name = some layout) :
    ∃ layout', history.layout? (v + 1) name = some layout' ∧
      layout.run version.name (stepsOf name after.transformations) = .ok layout' := by
  obtain ⟨version', before, hversion', hbefore, hreplay, hsteps⟩ := exists_replay h hafter
  obtain rfl := Option.some.inj (hversion'.symm.trans hversion)
  obtain ⟨stage, hstage, hget⟩ := layout?_eq_some_iff.mp hlayout
  obtain rfl := Option.some.inj (hbefore.symm.trans hstage)
  obtain ⟨-, -, -, hrun⟩ := Layouts.replayFrom_eq_ok hreplay
  obtain ⟨layout', hget', hrun⟩ := hrun name layout hget
  rw [hsteps]
  exact ⟨layout', layout?_eq_some_iff.mpr ⟨after, hafter, hget'⟩, hrun⟩

/-- **A type that is not targeted keeps its layout**, with its order. -/
theorem layout?_succ_of_not_mem_changed {after : Stage}
    (hafter : history.stages[v + 1]? = some after) (hname : name ∉ after.changed) :
    history.layout? (v + 1) name = history.layout? v name := by
  obtain ⟨version, before, -, hbefore, hreplay, -⟩ := exists_replay h hafter
  rw [layout?, layout?, hafter, hbefore, Option.bind_some, Option.bind_some,
    Layouts.get?_replay_of_not_mem hreplay hname]

/-- **A layout is marked as different** when the next version transforms its type, and only then:
the comparison of the fields adds nothing to the marks. -/
theorem differsAfter_eq_true_iff {after : Stage} (hafter : history.stages[v + 1]? = some after)
    {fields : Layout} (hlayout : history.layout? v name = some fields) :
    history.differsAfter v name fields = true ↔ name ∈ after.changed := by
  rw [differsAfter, hafter]
  by_cases hchanged : name ∈ after.changed
  · simp [hchanged]
  · rw [← layout?_succ_of_not_mem_changed h hafter hchanged] at hlayout
    obtain ⟨stage, hstage, hget⟩ := layout?_eq_some_iff.mp hlayout
    obtain rfl := Option.some.inj (hafter.symm.trans hstage)
    simp [hchanged, hget, OrderedMap.agrees_self]

end Layouts

/-! ### Interfaces -/

section Interfaces

variable {definition definition' : Definition} {history : History}

theorem checkTypes_eq_ok_iff {version : Nat} {entries : List (String × BaseType)} :
    checkTypes definition history version entries = .ok () ↔
      ∀ entry ∈ entries, ∀ layout, history.layout? version entry.1 = some layout →
        checkImplemented definition layout entry.1 entry.2.implemented = .ok () := by
  induction entries with
  | nil => exact iff_of_true rfl nofun
  | cons entry rest ih =>
    obtain ⟨name, type⟩ := entry
    rw [List.forall_mem_cons, ← ih, checkTypes]
    cases history.layout? version name with
    | none => exact (and_iff_right nofun).symm
    | some layout =>
      simp only [bind_eq_ok, Option.some.injEq, forall_eq']
      exact ⟨fun ⟨⟨⟩, hfirst, hrest⟩ => ⟨hfirst, hrest⟩, fun ⟨hfirst, hrest⟩ => ⟨(), hfirst, hrest⟩⟩

/-- A type is checked against the interfaces of the schema, and against nothing else of it. -/
theorem checkImplemented_congr
    (h : ∀ name, definition.interfaces.get? name = definition'.interfaces.get? name)
    (layout : Layout) (type : String) (names : List String) :
    checkImplemented definition layout type names =
      checkImplemented definition' layout type names := by
  induction names with
  | nil => rfl
  | cons name rest ih => simp only [checkImplemented, h, ih]

end Interfaces

end History

/-! ## The schema with its history -/

namespace Replayed

/-- **A sound definition with a sound chain and a sound history.** -/
structure Sound (replayed : Replayed) : Prop where
  definition : replayed.definition.Sound
  chain : replayed.chain.Sound
  history : replayed.history.Sound replayed.definition replayed.chain

/-- The history of an accepted schema is sound. -/
theorem sound_of_replay {config : Config} {replayed : Replayed}
    (h : config.replay = .ok replayed) : replayed.Sound := by
  obtain ⟨definition, hdefinition, h⟩ := bind_eq_ok.mp h
  obtain ⟨chain, hchain, h⟩ := bind_eq_ok.mp h
  obtain ⟨history, hhistory, h⟩ := bind_eq_ok.mp h
  obtain rfl := Except.ok.inj h
  have hsound := Chain.sound_of_ofDefinition hchain
  exact ⟨Definition.sound_of_ofConfig hdefinition, hsound,
    (History.ofChain_eq_ok_iff hsound).mp hhistory⟩

namespace Sound

variable {replayed : Replayed} (hr : replayed.Sound)

include hr

theorem length_stages : replayed.history.stages.length = replayed.chain.size := hr.history.size

theorem exists_stage {v : Nat} (hv : v < replayed.chain.size) :
    ∃ stage, replayed.history.stages[v]? = some stage := by
  rw [← hr.length_stages] at hv
  exact ⟨_, List.getElem?_eq_getElem hv⟩

theorem lt_size_of_stage {v : Nat} {stage : Stage}
    (h : replayed.history.stages[v]? = some stage) : v < replayed.chain.size := by
  rw [← hr.length_stages]
  exact (List.getElem?_eq_some_iff.mp h).1

theorem ofChain_eq_ok :
    History.ofChain replayed.definition replayed.chain = .ok replayed.history :=
  (History.ofChain_eq_ok_iff hr.chain).mpr hr.history

/-- Each stage behind the first is the replay of a version on the one before. -/
theorem exists_replay {v : Nat} {after : Stage}
    (h : replayed.history.stages[v + 1]? = some after) :
    ∃ version before, replayed.chain.get? (v + 1) = some version ∧
      replayed.history.stages[v]? = some before ∧
      Layouts.replay replayed.definition.catalog version.name before.layouts
        version.transformations = .ok (after.layouts, after.changed) ∧
      after.transformations = version.transformations :=
  History.exists_replay hr.ofChain_eq_ok h

/-- A stage has the transformations of its version. -/
theorem transformations_stage {v : Nat} {stage : Stage} {version : Version}
    (h : replayed.history.stages[v]? = some stage)
    (hversion : replayed.chain.get? v = some version) :
    stage.transformations = version.transformations := by
  cases v with
  | zero =>
    obtain ⟨first, hfirst, -, -, hnone⟩ := hr.history.first
    obtain rfl := Option.some.inj (hfirst.symm.trans h)
    rw [hnone, hr.chain.root hversion]
  | succ v =>
    obtain ⟨version', before, hversion', -, -, hsteps⟩ := hr.exists_replay h
    obtain rfl := Option.some.inj (hversion'.symm.trans hversion)
    exact hsteps

theorem keys_layouts {v : Nat} {stage : Stage} (h : replayed.history.stages[v]? = some stage) :
    stage.layouts.keys = replayed.definition.baseTypes.keys :=
  History.keys_layouts hr.ofChain_eq_ok h

/-- **Exactly the base types have a layout**, at every version. -/
theorem layout?_isSome_iff {v : Nat} (hv : v < replayed.chain.size) {name : String} :
    (replayed.history.layout? v name).isSome ↔
      replayed.definition.catalog.category? name = some .base := by
  obtain ⟨stage, hstage⟩ := hr.exists_stage hv
  have hlayout : replayed.history.layout? v name = stage.layouts.get? name := by
    rw [History.layout?, hstage, Option.bind_some]
  rw [hlayout, OrderedMap.get?_isSome_iff, hr.definition.base, OrderedMap.mem_iff_mem_keys,
    hr.keys_layouts hstage, OrderedMap.mem_iff_mem_keys]

theorem exists_layout {v : Nat} (hv : v < replayed.chain.size) {name : String}
    (hbase : replayed.definition.catalog.category? name = some .base) :
    ∃ layout, replayed.history.layout? v name = some layout :=
  Option.isSome_iff_exists.mp ((hr.layout?_isSome_iff hv).mpr hbase)

/-- Every transformation targets a base type and introduces known types only. -/
theorem checked_transformation {v : Nat} {stage : Stage}
    (h : replayed.history.stages[v]? = some stage) {step : Step}
    (hstep : step ∈ stage.transformations) :
    replayed.definition.catalog.category? step.type = some .base ∧
      ∀ ref, step.change.introduced? = some ref → replayed.definition.catalog.Knows ref := by
  cases v with
  | zero =>
    obtain ⟨first, hfirst, -, -, hnone⟩ := hr.history.first
    obtain rfl := Option.some.inj (hfirst.symm.trans h)
    rw [hnone] at hstep
    cases hstep
  | succ v =>
    obtain ⟨version, before, -, -, hreplay, hsteps⟩ := hr.exists_replay h
    obtain ⟨hchecked, -⟩ := Layouts.replayFrom_eq_ok hreplay
    exact Layouts.checkStep_eq_ok (hchecked step (hsteps ▸ hstep)).1

/-- The types that a version changes are the targets of its transformations. -/
theorem mem_changed_iff {v : Nat} {stage : Stage}
    (h : replayed.history.stages[v]? = some stage) {name : String} :
    name ∈ stage.changed ↔ ∃ step ∈ stage.transformations, step.type = name := by
  cases v with
  | zero =>
    obtain ⟨first, hfirst, -, hchanged, hnone⟩ := hr.history.first
    obtain rfl := Option.some.inj (hfirst.symm.trans h)
    rw [hnone, hchanged]
    exact ⟨nofun, nofun⟩
  | succ v => exact History.mem_changed_iff hr.ofChain_eq_ok h

/-- **The layout of a type at the next version** comes from its own transformations. -/
theorem layout?_succ {v : Nat} {after : Stage} {version : Version}
    (h : replayed.history.stages[v + 1]? = some after)
    (hversion : replayed.chain.get? (v + 1) = some version) {name : String} {layout : Layout}
    (hlayout : replayed.history.layout? v name = some layout) :
    ∃ layout', replayed.history.layout? (v + 1) name = some layout' ∧
      layout.run version.name (stepsOf name after.transformations) = .ok layout' :=
  History.layout?_succ hr.ofChain_eq_ok h hversion hlayout

/-- **A type that is not targeted keeps its layout**, with its order. -/
theorem layout?_succ_of_not_mem_changed {v : Nat} {after : Stage}
    (h : replayed.history.stages[v + 1]? = some after) {name : String}
    (hname : name ∉ after.changed) :
    replayed.history.layout? (v + 1) name = replayed.history.layout? v name :=
  History.layout?_succ_of_not_mem_changed hr.ofChain_eq_ok h hname

/-- **All types in a layout are known**, at every version. -/
theorem knows_layout {v : Nat} {name : String} {layout : Layout}
    (h : replayed.history.layout? v name = some layout) :
    ∀ ref ∈ layout.values, replayed.definition.catalog.Knows ref := by
  obtain ⟨stage, hstage, hget⟩ := History.layout?_eq_some_iff.mp h
  exact History.known_layouts hr.ofChain_eq_ok hr.definition hstage layout
    (OrderedMap.mem_values_of_get? hget)

/-- The fields that a transformation reads exist at the version before. -/
theorem mem_layout_of_context {v : Nat} {after : Stage}
    (h : replayed.history.stages[v + 1]? = some after) {step : Step}
    (hstep : step ∈ after.transformations) {layout : Layout}
    (hlayout : replayed.history.layout? v step.type = some layout) :
    ∀ field ∈ step.change.context, field ∈ layout := by
  obtain ⟨version, before, -, hbefore, hreplay, hsteps⟩ := hr.exists_replay h
  obtain ⟨stage, hstage, hget⟩ := History.layout?_eq_some_iff.mp hlayout
  obtain rfl := Option.some.inj (hbefore.symm.trans hstage)
  obtain ⟨hchecked, -⟩ := Layouts.replayFrom_eq_ok hreplay
  exact Layouts.checkContext_eq_ok (hchecked step (hsteps ▸ hstep)).2 hget

end Sound

end Replayed

end SchemaEvolution

import SchemaEvolution.Proofs.History

/-!
# Types are replayed independently

The transformations of a version are replayed in one go, on the layouts of all types, and the
first fault ends the replay. But each of them works on the layout of its own type, and reads from
the version before. So the replay of a version comes down to the replays of single types: it
succeeds when all of these do, it yields what they yield, and it does not matter how the
transformations of different types follow each other.

## Main definitions

* `SameByType steps steps'`: lists that differ in how types follow each other, and in nothing else
* `Layouts.single`: the layout of one type alone

## Main results

* `Layouts.exists_replay_iff`: when the transformations of a version are accepted
* `Layouts.exists_replay_stepsOf`: a type has the layout that its own transformations lead to
* `Layouts.replay_sameByType`: how types follow each other does not matter
* `History.replay_snapshot`: a layout in a history comes from that of the version before, by the
  transformations of the snapshot alone
* `Layouts.replay_by_type`: types are replayed independently
-/

namespace SchemaEvolution

/-- **The same transformations of each type in the same order**, however those of different types
follow each other. -/
def SameByType (steps steps' : List Step) : Prop :=
  ∀ type, stepsOf type steps = stepsOf type steps'

section Steps

variable {steps steps' : List Step} {step : Step} {type : String}

theorem mem_stepsOf_iff : step ∈ stepsOf type steps ↔ step ∈ steps ∧ step.type = type := by
  rw [List.mem_filter, beq_iff_eq]

theorem stepsOf_stepsOf_self : stepsOf type (stepsOf type steps) = stepsOf type steps := by
  simp

theorem SameByType.symm (h : SameByType steps steps') : SameByType steps' steps :=
  fun type => (h type).symm

theorem SameByType.mem_iff (h : SameByType steps steps') : step ∈ steps ↔ step ∈ steps' := by
  have hsteps : ∀ {steps : List Step}, step ∈ steps ↔ step ∈ stepsOf step.type steps := by
    simp
  rw [hsteps, h step.type, ← hsteps]

end Steps

namespace Layouts

variable {catalog : Catalog} {version : String} {previous out : Layouts} {steps steps' : List Step}
  {changed : NameSet} {type : String}

/-! ## When a version is accepted -/

/-- A replay goes through when all checks pass and the transformations of each type do. -/
theorem exists_replayFrom {working : Layouts}
    (hchecked : ∀ step ∈ steps, checkStep catalog version step = .ok () ∧
      checkContext previous version step = .ok ())
    (hrun : ∀ step ∈ steps, ∃ layout layout', working.get? step.type = some layout ∧
      layout.run version (stepsOf step.type steps) = .ok layout') :
    ∃ out, replayFrom catalog version previous steps (working, changed) = .ok out := by
  induction steps generalizing working changed with
  | nil => exact ⟨_, rfl⟩
  | cons step rest ih =>
    obtain ⟨⟨hstep, hcontext⟩, hchecked⟩ := List.forall_mem_cons.mp hchecked
    obtain ⟨⟨layout, layout', hget, hlayout⟩, hrun⟩ := List.forall_mem_cons.mp hrun
    rw [stepsOf_cons_self] at hlayout
    obtain ⟨middle, happly, hlater⟩ := bind_eq_ok.mp hlayout
    have hworking : applyStep version step working = .ok (working.replace step.type middle) := by
      rw [applyStep, hget]
      exact bind_eq_ok.mpr ⟨middle, happly, rfl⟩
    obtain ⟨out, hout⟩ := @ih (NameSet.add changed step.type) (working.replace step.type middle)
      hchecked fun later hmem => by
        obtain ⟨before, after, hbefore, hafter⟩ := hrun later hmem
        rw [OrderedMap.get?_replace]
        by_cases hsame : step.type = later.type
        · rw [← hsame, if_pos rfl, hget]
          exact ⟨middle, layout', rfl, hlater⟩
        · rw [stepsOf_cons_of_ne hsame] at hafter
          exact ⟨before, after, by rwa [if_neg (Ne.symm hsame)], hafter⟩
    exact ⟨out, bind_eq_ok.mpr ⟨(), hstep, bind_eq_ok.mpr ⟨(), hcontext,
      bind_eq_ok.mpr ⟨_, hworking, hout⟩⟩⟩⟩

/-- A transformation that is accepted targets a type that had a layout. -/
theorem exists_get?_of_checkContext {step : Step}
    (h : checkContext previous version step = .ok ()) :
    ∃ layout, previous.get? step.type = some layout := by
  cases hget : previous.get? step.type with
  | some layout => exact ⟨layout, rfl⟩
  | none =>
    rw [checkContext, hget] at h
    cases h

/-- **When the transformations of a version are accepted**: each of them is checked against the
version before, and those of one type go through on its layout. -/
theorem exists_replay_iff :
    (∃ out, replay catalog version previous steps = .ok out) ↔
      ∀ step ∈ steps, checkStep catalog version step = .ok () ∧
        checkContext previous version step = .ok () ∧
          ∃ layout layout', previous.get? step.type = some layout ∧
            layout.run version (stepsOf step.type steps) = .ok layout' := by
  constructor
  · rintro ⟨⟨out, changed⟩, hreplay⟩ step hstep
    obtain ⟨hchecked, -, -, hrun⟩ := replayFrom_eq_ok hreplay
    obtain ⟨hcheck, hcontext⟩ := hchecked step hstep
    obtain ⟨layout, hget⟩ := exists_get?_of_checkContext hcontext
    obtain ⟨layout', -, hlayout⟩ := hrun _ _ hget
    exact ⟨hcheck, hcontext, layout, layout', hget, hlayout⟩
  · intro h
    refine exists_replayFrom (fun step hstep => ?_) fun step hstep => (h step hstep).2.2
    obtain ⟨hcheck, hcontext, -⟩ := h step hstep
    exact ⟨hcheck, hcontext⟩

/-- **A version is accepted when the transformations of each type are**, on their own. -/
theorem exists_replay_iff_forall :
    (∃ out, replay catalog version previous steps = .ok out) ↔ ∀ step ∈ steps,
      ∃ out, replay catalog version previous (stepsOf step.type steps) = .ok out := by
  rw [exists_replay_iff]
  constructor
  · intro h step _
    refine exists_replay_iff.mpr fun other hother => ?_
    obtain ⟨hmem, hsame⟩ := mem_stepsOf_iff.mp hother
    rw [hsame, stepsOf_stepsOf_self, ← hsame]
    exact h other hmem
  · intro h step hstep
    have halone := exists_replay_iff.mp (h step hstep) step (mem_stepsOf_iff.mpr ⟨hstep, rfl⟩)
    rwa [stepsOf_stepsOf_self] at halone

/-! ## What a version yields -/

/-- **A type has the layout that its own transformations lead to**, without those of others. -/
theorem exists_replay_stepsOf (h : replay catalog version previous steps = .ok (out, changed))
    (type : String) : ∃ alone marked,
      replay catalog version previous (stepsOf type steps) = .ok (alone, marked) ∧
        out.get? type = alone.get? type := by
  obtain ⟨⟨alone, marked⟩, halone⟩ :
      ∃ result, replay catalog version previous (stepsOf type steps) = .ok result := by
    refine exists_replay_iff.mpr fun step hstep => ?_
    obtain ⟨hmem, rfl⟩ := mem_stepsOf_iff.mp hstep
    rw [stepsOf_stepsOf_self]
    exact exists_replay_iff.mp ⟨_, h⟩ step hmem
  refine ⟨alone, marked, halone, ?_⟩
  rw [get?_replay h, get?_replay halone, stepsOf_stepsOf_self]

/-- A replay goes the same way for the same transformations of each type. -/
theorem replay_of_sameByType (hsame : SameByType steps steps')
    (h : replay catalog version previous steps = .ok (out, changed)) :
    replay catalog version previous steps' = .ok (out, changed) := by
  obtain ⟨⟨out', changed'⟩, h'⟩ :
      ∃ result, replay catalog version previous steps' = .ok result := by
    refine exists_replay_iff.mpr fun step hstep => ?_
    rw [← hsame step.type]
    exact exists_replay_iff.mp ⟨_, h⟩ step (hsame.mem_iff.mpr hstep)
  have hout : out' = out := by
    refine OrderedMap.eq_of_get? ?_ fun type _ => ?_
    · rw [keys_replay h', keys_replay h]
    · rw [get?_replay h', get?_replay h, hsame type]
  have hchanged : changed' = changed := by
    refine NameSet.eq_of_mem fun type => ?_
    simp only [mem_changed_replay_iff h', mem_changed_replay_iff h, hsame.mem_iff]
  rw [h', hout, hchanged]

/-- **How types follow each other does not matter.** -/
theorem replay_sameByType (hsame : SameByType steps steps') (result : Layouts × NameSet) :
    replay catalog version previous steps' = .ok result ↔
      replay catalog version previous steps = .ok result :=
  ⟨replay_of_sameByType hsame.symm, replay_of_sameByType hsame⟩

/-! ## One type alone -/

/-- The layout of one type alone. -/
def single (type : String) (layout : Layout) : Layouts :=
  .ofList [(type, layout)]

theorem entries_single (type : String) (layout : Layout) :
    (single type layout).entries = [(type, layout)] :=
  OrderedMap.entries_ofList (List.nodup_singleton type)

theorem keys_single (type : String) (layout : Layout) : (single type layout).keys = [type] := by
  rw [OrderedMap.keys, entries_single]
  rfl

theorem get?_single (type : String) (layout : Layout) :
    (single type layout).get? type = some layout := by
  rw [OrderedMap.get?_eq_some_iff, entries_single]
  exact List.mem_singleton_self _

/-- **The transformations of one type are replayed on its layout alone**, with the same result. -/
theorem exists_replay_single (h : replay catalog version previous steps = .ok (out, changed))
    {layout layout' : Layout} (hget : previous.get? type = some layout)
    (hget' : out.get? type = some layout') :
    ∃ marked, replay catalog version (single type layout) (stepsOf type steps) =
      .ok (single type layout', marked) := by
  have hrun : (layout.run version (stepsOf type steps)).toOption = some layout' := by
    rw [← hget', get?_replay h, hget, Option.bind_some]
  obtain ⟨⟨alone, marked⟩, halone⟩ :
      ∃ result, replay catalog version (single type layout) (stepsOf type steps) = .ok result := by
    refine exists_replay_iff.mpr fun step hstep => ?_
    obtain ⟨hmem, rfl⟩ := mem_stepsOf_iff.mp hstep
    obtain ⟨hcheck, hcontext, -⟩ := exists_replay_iff.mp ⟨_, h⟩ step hmem
    rw [checkContext, hget] at hcontext
    rw [checkContext, get?_single, stepsOf_stepsOf_self]
    exact ⟨hcheck, hcontext, layout, layout', rfl, toOption_eq_some_iff.mp hrun⟩
  refine ⟨marked, ?_⟩
  have hout : alone = single type layout' := by
    refine OrderedMap.eq_of_get? ?_ fun name hname => ?_
    · rw [keys_replay halone, keys_single, keys_single]
    · rw [OrderedMap.mem_iff_mem_keys, keys_replay halone, keys_single, List.mem_singleton] at hname
      rw [hname, get?_replay halone, get?_single, get?_single, stepsOf_stepsOf_self]
      exact hrun
  rw [halone, hout]

end Layouts

/-! ## Histories -/

/-- **A layout in a history comes from that of the version before**, by the transformations that
the snapshot of its type lists, and by no others. -/
theorem History.replay_snapshot {definition : Definition} {chain : Chain} {history : History}
    (h : ofChain definition chain = .ok history) {type : String}
    (htype : type ∈ definition.baseTypes) {v : Nat} (hv : v < chain.currentIndex) :
    ∃ declared before snapshot marked, chain.get? (v + 1) = some declared ∧
      history.layout? v type = some before ∧ history.snapshot? (v + 1) type = some snapshot ∧
      history.layout? (v + 1) type = some snapshot.fields ∧
      Layouts.replay definition.catalog declared.name (.single type before)
        snapshot.transformations = .ok (.single type snapshot.fields, marked) := by
  obtain ⟨before, hbefore⟩ := exists_layout h htype (Nat.le_of_lt hv)
  obtain ⟨fields, hfields⟩ := exists_layout h htype hv
  obtain ⟨after, hafter, hget'⟩ := layout?_eq_some_iff.mp hfields
  obtain ⟨declared, stage, hdeclared, hstage, hreplay, hsteps⟩ := exists_replay h hafter
  obtain ⟨stage', hstage', hget⟩ := layout?_eq_some_iff.mp hbefore
  obtain rfl := Option.some.inj (hstage.symm.trans hstage')
  obtain ⟨marked, hsingle⟩ := Layouts.exists_replay_single hreplay hget hget'
  rw [← hsteps] at hsingle
  exact ⟨declared, before, _, marked, hdeclared, hbefore,
    snapshot?_eq_some_iff.mpr ⟨after, fields, hafter, hget', rfl⟩, hfields, hsingle⟩

/-- **Types are replayed independently.** The transformations of a version are accepted exactly if
those of each type are on their own, and then each type has the layout that its own lead to, no
other layout and no order changes, and the targeted types are marked. So it does not matter how the
transformations of different types follow each other; and in a history, each layout is the replay
of the transformations of its snapshot on the layout before. -/
theorem Layouts.replay_by_type (catalog : Catalog) (version : String) (previous : Layouts)
    (steps : List Step) :
    ((∃ out, replay catalog version previous steps = .ok out) ↔ ∀ step ∈ steps,
      ∃ out, replay catalog version previous (stepsOf step.type steps) = .ok out) ∧
    (∀ out changed, replay catalog version previous steps = .ok (out, changed) →
      out.keys = previous.keys ∧
      (∀ type, type ∈ changed ↔ ∃ step ∈ steps, step.type = type) ∧
      (∀ type, type ∉ changed → out.get? type = previous.get? type) ∧
      ∀ type, ∃ alone marked,
        replay catalog version previous (stepsOf type steps) = .ok (alone, marked) ∧
          out.get? type = alone.get? type) ∧
    (∀ steps', SameByType steps steps' → ∀ result,
      replay catalog version previous steps' = .ok result ↔
        replay catalog version previous steps = .ok result) ∧
    ∀ definition chain history, History.ofChain definition chain = .ok history →
      ∀ type ∈ definition.baseTypes, ∀ v < chain.currentIndex,
        ∃ declared before snapshot marked, chain.get? (v + 1) = some declared ∧
          history.layout? v type = some before ∧ history.snapshot? (v + 1) type = some snapshot ∧
          history.layout? (v + 1) type = some snapshot.fields ∧
          replay definition.catalog declared.name (single type before) snapshot.transformations =
            .ok (single type snapshot.fields, marked) := by
  refine ⟨exists_replay_iff_forall, fun out changed h => ?_, fun steps' hsame result => ?_,
    fun definition chain history h type htype v hv => ?_⟩
  · exact ⟨keys_replay h, fun type => mem_changed_replay_iff h,
      fun type => get?_replay_of_not_mem h, exists_replay_stepsOf h⟩
  · exact replay_sameByType hsame result
  · exact History.replay_snapshot h htype hv

/-- A schema that drops a field and reads it afterwards, converts a field to the type that it has,
and moves a field to the end under its own name. -/
def Config.revised : Config where
  currentVersion := "3"
  baseTypes := .ofList [("A", { fields := .ofList [("x", "int")] }),
    ("B", { fields := .ofList [("a", "A[]"), ("n", "int")] })]
  versions := .ofList [("1", {}),
    ("2", { previous := some "1", transformations := [⟨"B", .remove "n"⟩,
      ⟨"A", .convert "x" "int" "c.X" []⟩, ⟨"B", .insert "k" "-string" "c.K" ["n"] (some 0)⟩] }),
    ("3", { previous := some "2", transformations := [⟨"B", .move "k" "k" (some 1)⟩] })]

namespace Step

/-- What the second version of the sample does to `A`. -/
def converting : Step := ⟨"A", .convert "x" ⟨"int", .plain⟩ (.construct "c.X") []⟩

/-- What the second version of the sample does to `B` first. -/
def removing : Step := ⟨"B", .remove "n"⟩

/-- What it does to `B` behind that. -/
def inserting : Step :=
  ⟨"B", .insert "k" ⟨"string", .nullable⟩ (.construct "c.K") ["n"] (some 0)⟩

/-- What the third version does. -/
def moving : Step := ⟨"B", .move "k" "k" (some 1)⟩

end Step

open Step in
set_option maxRecDepth 20000 in
theorem Config.replay_revised : Config.revised.replay.toOption.map (fun replayed =>
    replayed.history.stages.map fun stage =>
      (stage.layouts.entries.map fun entry => (entry.1, entry.2.keys), stage.transformations)) =
    some [([("A", ["x"]), ("B", ["a", "n"])], []),
      ([("A", ["x"]), ("B", ["k", "a"])], [removing, converting, inserting]),
      ([("A", ["x"]), ("B", ["a", "k"])], [moving])] := by
  cbv

open Step in
/-- The three stages of the sample. -/
theorem Config.exists_replay_revised : ∃ replayed first second third,
    Config.revised.replay = .ok replayed ∧ replayed.chain.currentIndex = 2 ∧
      replayed.history.stages[0]? = some first ∧ replayed.history.stages[1]? = some second ∧
      replayed.history.stages[2]? = some third ∧
      second.transformations = [removing, converting, inserting] ∧
      third.transformations = [moving] := by
  have hsample := Config.replay_revised
  cases hreplay : Config.revised.replay with
  | error e =>
    rw [hreplay] at hsample
    cases hsample
  | ok replayed =>
    rw [hreplay] at hsample
    obtain ⟨first, rest, hstages, -, hrest⟩ := List.map_eq_cons_iff.mp (Option.some.inj hsample)
    obtain ⟨second, rest, rfl, hsecond, hrest⟩ := List.map_eq_cons_iff.mp hrest
    obtain ⟨third, rest, rfl, hthird, hrest⟩ := List.map_eq_cons_iff.mp hrest
    obtain rfl := List.map_eq_nil_iff.mp hrest
    refine ⟨replayed, first, second, third, rfl, ?_, ?_, ?_, ?_, (Prod.mk.inj hsecond).2,
      (Prod.mk.inj hthird).2⟩
    · rw [Chain.currentIndex, ← (Replayed.sound_of_replay hreplay).length_stages, hstages]
      rfl
    all_goals rw [hstages]; rfl

open Step in
/-- In the sample the transformation of `A` may as well come first, and `B` does not need it. -/
theorem Layouts.replay_by_type_revised : ∃ replayed first second version marked,
    Config.revised.replay = .ok replayed ∧ replayed.history.stages[0]? = some first ∧
      replayed.history.stages[1]? = some second ∧
      Layouts.replay replayed.definition.catalog version first.layouts
        [converting, removing, inserting] = .ok (second.layouts, second.changed) ∧
      "A" ∈ second.changed ∧
      (∃ alone, Layouts.replay replayed.definition.catalog version first.layouts
        [removing, inserting] = .ok (alone, marked) ∧
          second.layouts.get? "B" = alone.get? "B") ∧
      ∃ before snapshot, replayed.history.layout? 0 "B" = some before ∧
        replayed.history.snapshot? 1 "B" = some snapshot ∧
          ∃ marked, Layouts.replay replayed.definition.catalog version (.single "B" before)
            snapshot.transformations = .ok (.single "B" snapshot.fields, marked) := by
  obtain ⟨replayed, first, second, -, hreplay, hcurrent, hfirst, hsecond, -, hsteps, -⟩ :=
    Config.exists_replay_revised
  have hr := Replayed.sound_of_replay hreplay
  obtain ⟨version, before, hversion, hbefore, hsame, htransformations⟩ := hr.exists_replay hsecond
  obtain rfl := Option.some.inj (hbefore.symm.trans hfirst)
  rw [← htransformations, hsteps] at hsame
  obtain ⟨-, hresult, horder, hhistory⟩ := Layouts.replay_by_type replayed.definition.catalog
    version.name before.layouts [removing, converting, inserting]
  have hinterleaved : SameByType [removing, converting, inserting]
      [converting, removing, inserting] := by
    intro type
    by_cases hA : "A" = type <;> by_cases hB : "B" = type <;>
      simp [converting, removing, inserting, hA, hB]
    exact absurd (hA.trans hB.symm) (by decide)
  obtain ⟨-, hchanged, -, halone⟩ := hresult _ _ hsame
  obtain ⟨alone, marked, halone, hget⟩ := halone "B"
  have hbase : "B" ∈ replayed.definition.baseTypes := by
    have hbase := (hr.checked_transformation hsecond (hsteps ▸ List.mem_cons_self)).1
    exact hr.definition.base.mp hbase
  obtain ⟨declared, before', snapshot, marked', hdeclared, hbefore', hsnapshot, -, hsingle⟩ :=
    hhistory _ _ _ hr.ofChain_eq_ok "B" hbase 0 (by omega)
  obtain rfl := Option.some.inj (hdeclared.symm.trans hversion)
  exact ⟨replayed, before, second, declared.name, marked, hreplay, hfirst, hsecond,
    (horder _ hinterleaved _).mpr hsame,
    (hchanged "A").mpr ⟨converting, by simp, rfl⟩, ⟨alone, halone, hget⟩, before', snapshot,
    hbefore', hsnapshot, marked', hsingle⟩

end SchemaEvolution

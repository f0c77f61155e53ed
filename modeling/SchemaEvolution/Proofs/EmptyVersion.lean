import SchemaEvolution.Proofs.Insertion
import SchemaEvolution.Proofs.MirroredGraph
import SchemaEvolution.Proofs.MirroredPaths
import SchemaEvolution.Proofs.Totality

/-!
# A version without transformations

A version that transforms nothing costs nothing, wherever in the chain it is inserted. Its layouts
are those of the version in front of it, all types stay in force for it, and so it shares all nodes.
The graph is the same but for its labels: versions behind the new one have the next number, and a
type that is in force right before the new version is in force for it too.

## Main definitions

* `stretch`: the label of a node when a version that changes nothing is inserted
* `unshift`: the version before the insertion that has the layouts of a version behind it
* `Replayed.Pauses`: a schema with one more version that changes nothing

## Main results

* `Replayed.Pauses.sound_history`: its history is sound
* `Replayed.Pauses.affected_stretch_iff`: the same types change, over the same steps
* `Replayed.Pauses.mirrors`: all versions are the same up to labels
* `Config.Accepts.exists_pauses`: a schema stays accepted when a version without transformations is
  inserted
* `Config.compile_insertVersion_empty`: a version without transformations costs nothing
-/

namespace SchemaEvolution

/-! ## Places and labels -/

/-- **The label of a node when a version that changes nothing is inserted at `k`**: a node that is
in force right before the new version, or behind it, gets the next label. -/
def stretch (k label : Nat) : Nat := if k ≤ label + 1 then label + 1 else label

/-- The version before the insertion at `k` that has the layouts of `w`: the new version has those
of the version in front, or those of the first one if there is none in front. -/
def unshift (k w : Nat) : Nat := if w < k then w else w - 1

variable {k v w : Nat}

theorem unshift_shift : unshift k (shift k v) = v := by
  by_cases hv : v < k
  · rw [shift, if_pos hv, unshift, if_pos hv]
  · rw [shift, if_neg hv, unshift, if_neg (by omega), Nat.add_sub_cancel]

theorem unshift_self : unshift k k = k - 1 := if_neg (Nat.lt_irrefl k)

/-- What ends with a label is followed by what followed it before. -/
theorem stretch_succ : stretch k v + 1 = shift k (v + 1) := by
  unfold stretch shift
  split <;> split <;> omega

theorem unshift_stretch : unshift k (stretch k v) = v := by
  unfold unshift stretch
  split <;> split <;> omega

theorem stretch_lt_stretch (h : v < w) : stretch k v < stretch k w := by
  have hlt : shift k (v + 1) < shift k (w + 1) := shift_lt_shift (Nat.succ_lt_succ h)
  rw [← stretch_succ, ← stretch_succ] at hlt
  exact Nat.lt_of_succ_lt_succ hlt

theorem le_stretch_iff : w ≤ stretch k v ↔ unshift k w ≤ v := by
  unfold unshift stretch
  split <;> split <;> omega

/-- With nothing at the one place that no label is stretched to, the other places are gone through
as before. -/
theorem flatMap_range_stretch {α : Type} {f : Nat → List α} {n : Nat} (hk : k - 1 ≤ n)
    (hnone : f (k - 1) = []) :
    (List.range (n + 1)).reverse.flatMap f =
      (List.range n).reverse.flatMap fun v => f (stretch k v) := by
  have hsplit : ∀ m, (List.range (m + 1)).reverse.flatMap f =
      f m ++ (List.range m).reverse.flatMap f := by
    intro m
    rw [List.range_succ, List.reverse_concat, List.flatMap_cons]
  induction n with
  | zero =>
    obtain hzero : k - 1 = 0 := Nat.le_zero.mp hk
    rw [hsplit, ← hzero, hnone, List.nil_append, hzero]
    rfl
  | succ n ih =>
    rcases Nat.eq_or_lt_of_le hk with hlast | hlt
    · rw [hsplit, ← hlast, hnone, List.nil_append, hlast]
      refine List.flatMap_congr fun v hv => ?_
      have hv := List.mem_range.mp (List.mem_reverse.mp hv)
      rw [stretch, if_neg (by omega)]
    · have hbehind : stretch k n = n + 1 := if_pos (by omega)
      rw [hsplit, ih (Nat.le_of_lt_succ hlt), List.range_succ, List.reverse_concat,
        List.flatMap_cons, hbehind]

/-! ## The history -/

/-- The stage of a version behind a given one that transforms nothing. -/
def Stage.still (stage : Stage) : Stage := { stage with changed := ∅, transformations := [] }

/-- **A schema with one more version that changes nothing.** -/
structure Replayed.Pauses (replayed replayed' : Replayed) (k : Nat) (name : String) : Prop
    extends Replayed.Inserts replayed replayed' k name [] where
  stages : ∃ stage, replayed.history.stages[k - 1]? = some stage ∧
    replayed'.history.stages = replayed.history.stages.insertIdx k stage.still

namespace Replayed.Pauses

variable {replayed replayed' : Replayed} {name type : String}
  (h : replayed.Pauses replayed' k name) (hr : replayed.Sound)

include h

/-- The stages of all other versions stay as they are. -/
theorem stages_shift (v : Nat) :
    replayed'.history.stages[shift k v]? = replayed.history.stages[v]? := by
  obtain ⟨stage, -, hstages⟩ := h.stages
  rw [hstages, getElem?_insertIdx_shift]

include hr

/-- The stage of the new version. -/
theorem exists_still : ∃ stage, replayed.history.stages[k - 1]? = some stage ∧
    replayed'.history.stages[k]? = some stage.still := by
  obtain ⟨stage, hstage, hstages⟩ := h.stages
  have hk : k ≤ replayed.history.stages.length := hr.length_stages ▸ h.chain.le_size
  rw [hstages, List.getElem?_insertIdx_self, if_pos hk]
  exact ⟨stage, hstage, rfl⟩

/-- A stage has the layouts of the stage that it comes from. -/
theorem exists_layouts {stage : Stage} (hstage : replayed'.history.stages[w]? = some stage) :
    ∃ stage', replayed.history.stages[unshift k w]? = some stage' ∧
      stage.layouts = stage'.layouts := by
  by_cases hw : w = k
  · subst hw
    obtain ⟨before, hbefore, hstill⟩ := h.exists_still hr
    obtain rfl := Option.some.inj (hstill.symm.trans hstage)
    exact ⟨before, by rwa [unshift_self], rfl⟩
  · obtain ⟨v, rfl⟩ := exists_shift_eq hw
    rw [h.stages_shift] at hstage
    exact ⟨stage, by rwa [unshift_shift], rfl⟩

/-- **The layouts of a version** are those of the version that it comes from. -/
theorem layout?_eq (w : Nat) (type : String) :
    replayed'.history.layout? w type = replayed.history.layout? (unshift k w) type := by
  unfold History.layout?
  by_cases hw : w = k
  · subst hw
    obtain ⟨before, hbefore, hstill⟩ := h.exists_still hr
    rw [hstill, unshift_self, hbefore]
    rfl
  · obtain ⟨v, rfl⟩ := exists_shift_eq hw
    rw [h.stages_shift, unshift_shift]

/-- **The history stays sound.** -/
theorem sound_history :
    replayed'.history.Sound replayed'.definition replayed'.chain where
  size := by
    obtain ⟨stage, -, hstages⟩ := h.stages
    have hk : k ≤ replayed.history.stages.length := hr.length_stages ▸ h.chain.le_size
    rw [History.size, hstages, List.length_insertIdx_of_le_length hk, hr.length_stages,
      h.chain.size]
  first := by
    obtain ⟨first, hfirst, hlayouts, hchanged, hsteps⟩ := hr.history.first
    rw [History.initialLayouts, ← h.baseTypes] at hlayouts
    by_cases hk : k = 0
    · subst hk
      obtain ⟨before, hbefore, hstill⟩ := h.exists_still hr
      obtain rfl := Option.some.inj (hbefore.symm.trans hfirst)
      exact ⟨_, hstill, hlayouts, rfl, rfl⟩
    · have hzero : shift k 0 = 0 := if_pos (Nat.pos_of_ne_zero hk)
      rw [← h.stages_shift, hzero] at hfirst
      exact ⟨first, hfirst, hlayouts, hchanged, hsteps⟩
  next {v version before after} hversion hbefore hafter := by
    obtain ⟨source, hsource, hlayouts⟩ := h.exists_layouts hr hbefore
    rw [hlayouts, h.catalog]
    rcases h.chain.cases_get? hversion with ⟨hv, hsteps⟩ | ⟨u, own, hu, hown, hname, hsteps⟩
    · subst hv
      obtain ⟨stage, hstage, hstill⟩ := h.exists_still hr
      obtain rfl := Option.some.inj (hafter.symm.trans hstill)
      rw [unshift, if_pos (Nat.lt_succ_self v)] at hsource
      obtain rfl := Option.some.inj (hstage.symm.trans hsource)
      rw [hsteps]
      exact ⟨rfl, rfl⟩
    · rw [hu, h.stages_shift] at hafter
      cases u with
      | zero =>
        have hfront : unshift k v = 0 := by
          unfold shift at hu
          unfold unshift
          split at hu <;> split <;> omega
        obtain ⟨first, hfirst, -, hchanged, hnone⟩ := hr.history.first
        obtain rfl := Option.some.inj (hfirst.symm.trans hafter)
        rw [hfront] at hsource
        obtain rfl := Option.some.inj (hsource.symm.trans hafter)
        rw [hsteps, hr.chain.root hown, hchanged]
        exact ⟨rfl, hnone⟩
      | succ u =>
        have hstretch : stretch k u = v := Nat.succ.inj (stretch_succ.trans hu.symm)
        rw [← hstretch, unshift_stretch] at hsource
        rw [hname, hsteps]
        exact hr.history.next hown hsource hafter

/-! ## What changes -/

theorem embeds : replayed.Embeds replayed' := by
  refine h.toInserts.embeds fun {v type layout} hlayout => ⟨shift k v, ?_⟩
  rw [h.layout?_eq hr, unshift_shift, hlayout]

/-- The new version brings in no types. -/
theorem embeds_back : replayed'.Embeds replayed where
  catalog := h.catalog.symm
  superTypes := h.superTypes.symm
  typeRefs {ref} href := by
    rw [mem_typeRefs_iff] at href ⊢
    rcases href with ⟨w, type, layout, hlayout, href⟩ |
      ⟨w, version, hversion, step, hstep, hintro⟩ | hinterface
    · rw [h.layout?_eq hr] at hlayout
      exact .inl ⟨_, type, layout, hlayout, href⟩
    · rcases h.chain.cases_get? hversion with ⟨-, hsteps⟩ | ⟨v, own, -, hown, -, hsteps⟩
      · rw [hsteps] at hstep
        cases hstep
      · exact .inr (.inl ⟨v, own, hown, step, hsteps ▸ hstep, hintro⟩)
    · exact .inr (.inr (by rwa [← h.interfaces]))

omit hr in
/-- The other versions transform the types that they transformed before. -/
theorem targets_shift : replayed'.Targets (shift k v) type ↔ replayed.Targets v type := by
  rw [Targets, Targets, h.stages_shift]

/-- The new version transforms no type. -/
theorem not_targets : ¬replayed'.Targets k type := by
  rintro ⟨stage, hstage, step, hstep, -⟩
  obtain ⟨before, -, hstill⟩ := h.exists_still hr
  obtain rfl := Option.some.inj (hstill.symm.trans hstage)
  cases hstep

variable (hr' : replayed'.Sound)

include hr'

/-- **The same types change**, over the same steps. -/
theorem affected_stretch_iff (htype : type ∈ replayed.blueprint.names) :
    replayed'.Affected (stretch k v) type ↔ replayed.Affected v type := by
  refine (h.embeds hr).affected_iff hr hr' htype (fun other => ?_) fun target => ?_
  · rw [h.layout?_eq hr, stretch_succ, unshift_shift]
  · rw [stretch_succ, h.targets_shift]

omit hr' in
/-- Something changes only over the steps that were there before. -/
theorem exists_stretch_of_affected (haffected : replayed'.Affected w type) :
    ∃ v, stretch k v = w := by
  obtain ⟨target, htarget, -⟩ := haffected
  have hw : w + 1 ≠ k := by
    intro hw
    rw [hw] at htarget
    exact h.not_targets hr htarget
  obtain ⟨u, hu⟩ := exists_shift_eq hw
  rw [← hu, h.targets_shift] at htarget
  cases u with
  | zero =>
    obtain ⟨stage, hstage, step, hstep, -⟩ := htarget
    obtain ⟨first, hfirst, -, -, hnone⟩ := hr.history.first
    obtain rfl := Option.some.inj (hfirst.symm.trans hstage)
    rw [hnone] at hstep
    cases hstep
  | succ v => exact ⟨v, Nat.succ.inj (stretch_succ.trans hu)⟩

/-- **A type that was in force up to a version** is in force up to the stretched one. -/
theorem labelAt {label : Nat} (htype : type ∈ replayed.blueprint.names)
    (hlabel : replayed.LabelAt (unshift k w) type label) :
    replayed'.LabelAt w type (stretch k label) where
  le := le_stretch_iff.mpr hlabel.le
  lt_size := by
    have hlt := hlabel.lt_size
    rw [h.chain.size, stretch]
    split <;> omega
  ends := by
    have hk := h.chain.le_size
    refine hlabel.ends.imp (fun hlast => ?_) (h.affected_stretch_iff hr hr' htype).mpr
    rw [h.chain.size, ← hlast, stretch, if_pos (by omega)]
  stays {x} hle hlt haffected := by
    obtain ⟨v, rfl⟩ := h.exists_stretch_of_affected hr haffected
    have hbefore : v < label := by
      by_contra hge
      rcases Nat.eq_or_lt_of_le (Nat.not_lt.mp hge) with rfl | hgt
      · exact Nat.lt_irrefl _ hlt
      · exact Nat.lt_asymm hlt (stretch_lt_stretch hgt)
    exact hlabel.stays (le_stretch_iff.mp hle) hbefore
      ((h.affected_stretch_iff hr hr' htype).mp haffected)

/-- **All versions are the same up to labels.** -/
theorem mirrors (hw : w < replayed'.chain.size) :
    replayed.Mirrors replayed' (fun _ => stretch k) (unshift k w) w where
  lt_size := by
    have hk := h.chain.le_size
    have hpos := hr.chain.nonempty
    rw [h.chain.size] at hw
    unfold unshift
    split <;> omega
  lt_size' := hw
  layout := h.layout?_eq hr w
  label htype hlabel := h.labelAt hr hr' htype hlabel

/-- **All steps are the same up to labels.** -/
theorem mirrorsStep (hv : v + 1 < replayed.chain.size) :
    replayed.MirrorsStep replayed' (fun _ => stretch k) v (stretch k v) := by
  have hversion : replayed.chain.get? (v + 1) = some replayed.chain.versions[v + 1] :=
    List.getElem?_eq_getElem hv
  obtain ⟨version', hversion', hname, hsteps⟩ := h.chain.kept hversion
  rw [← stretch_succ] at hversion'
  have hlt : stretch k v + 1 < replayed'.chain.size := (List.getElem?_eq_some_iff.mp hversion').1
  refine ⟨?_, ?_, ⟨_, version', hversion, hversion', hname, hsteps⟩, fun hcode => ?_⟩
  · have hbefore := h.mirrors hr hr' (Nat.lt_of_succ_lt hlt)
    rwa [unshift_stretch] at hbefore
  · have hafter := h.mirrors hr hr' hlt
    rwa [stretch_succ, unshift_shift, ← stretch_succ] at hafter
  · rw [h.chain.registry_eq, hcode]

/-! ## The graph -/

section Graph

variable {graph graph' : Graph} (hg : Built replayed 0 graph.sketch)
  (hg' : Built replayed' 0 graph'.sketch)

include hg hg'

/-- **For a version that was there before the same nodes are built**, up to labels. -/
theorem builtAt_stretch (hv : v < replayed.chain.size) :
    replayed'.blueprint.builtAt graph' (stretch k v) =
      (replayed.blueprint.builtAt graph v).map (Identity.relabel fun _ => stretch k) := by
  have hk := h.chain.le_size
  have hlast : stretch k v + 1 = replayed'.chain.size ↔ v + 1 = replayed.chain.size := by
    rw [h.chain.size, stretch]
    split <;> omega
  have hlt : stretch k v < replayed'.chain.size := by
    rw [h.chain.size, stretch]
    split <;> omega
  have hends : ∀ name ∈ replayed.blueprint.names,
      graph'.ends (stretch k v) name = graph.ends v name := by
    intro name hname
    rw [Bool.eq_iff_iff, hg'.ends_iff hlt, hg.ends_iff hv, hlast,
      h.affected_stretch_iff hr hr' hname]
  rw [Blueprint.builtAt, Blueprint.builtAt, (h.embeds hr).names_eq (h.embeds_back hr) hr hr',
    List.filter_congr hends, List.map_map]
  refine List.map_congr_left fun name hname => ?_
  have hevolves := (h.embeds hr).evolves_eq hr hr' (List.mem_filter.mp hname).1
  rw [Function.comp_apply, Blueprint.identityAt, Blueprint.identityAt, Identity.relabel, hevolves]
  split <;> rfl

omit hg hr' in
/-- **No node ends right before the new version**, or at it if it is the first. -/
theorem builtAt_pause : replayed'.blueprint.builtAt graph' (k - 1) = [] := by
  have hk := h.chain.le_size
  have hpos := hr.chain.nonempty
  have hsize : replayed'.chain.size = replayed.chain.size + 1 := h.chain.size
  rw [Blueprint.builtAt, List.map_eq_nil_iff, List.filter_eq_nil_iff]
  intro name _ hends
  rcases (hg'.ends_iff (by omega)).mp hends with hlast | haffected
  · omega
  · obtain ⟨v, hv⟩ := h.exists_stretch_of_affected hr haffected
    unfold stretch at hv
    split at hv <;> omega

/-- **Both graphs build their nodes in the same order**, up to labels. -/
theorem identities_eq {workers workers' : Nat}
    (hbuild : Graph.build workers replayed.definition replayed.chain replayed.history = .ok graph)
    (hbuild' : Graph.build workers' replayed'.definition replayed'.chain replayed'.history =
      .ok graph') :
    graph'.nodes.toList.map Node.identity =
      (graph.nodes.toList.map Node.identity).map (Identity.relabel fun _ => stretch k) := by
  have hk : k - 1 ≤ replayed.chain.size := Nat.le_trans (Nat.sub_le k 1) h.chain.le_size
  rw [Graph.identities_of_build hr hbuild, Graph.identities_of_build hr' hbuild', h.chain.size,
    flatMap_range_stretch hk (h.builtAt_pause hr hg'), List.map_flatMap]
  refine List.flatMap_congr fun v hv => ?_
  exact h.builtAt_stretch hr hr' hg hg' (List.mem_range.mp (List.mem_reverse.mp hv))

end Graph

end Replayed.Pauses

/-! ## The whole compilation -/

namespace Config

variable {config : Config} {c : Compilation} {replayed : Replayed} {name : String}
  {version : VersionConfig}

/-- **A schema stays accepted** when a version without transformations is inserted anywhere. -/
theorem Accepts.exists_pauses (h : config.Accepts replayed) (hk : k ≤ replayed.chain.size)
    (hempty : version.transformations = []) (place : Nat) (fresh : name ∉ config.versions) :
    ∃ replayed', (config.insertVersion (replayed.chain.before? k) place name version fresh).Accepts
      replayed' ∧ replayed.Pauses replayed' k name := by
  have hr := Replayed.sound_of_replay (accepts_iff.mp h).1
  have hresolves := Definition.ofConfig_eq_ok_iff.mp h.definition
  have hread : Definition.readVersion version = .ok ⟨version.previous, [], version.changelog⟩ := by
    refine Definition.readVersion_eq_ok_iff.mpr ⟨rfl, rfl, ?_⟩
    rw [hempty]
    rfl
  have hfresh : name ∉ replayed.definition.versions :=
    fun hmem => fresh (hresolves.mem_versions_iff.mp hmem)
  let definition' : Definition := replayed.definition.insertVersion (replayed.chain.before? k) place
    name ⟨version.previous, [], version.changelog⟩ hfresh
  obtain ⟨chain', hchain', hinserts⟩ : ∃ chain', Chain.ofDefinition definition' = .ok chain' ∧
      replayed.chain.Inserts chain' k name [] :=
    Chain.exists_ofDefinition_insertVersion h.chain hk (fun _ => rfl) hfresh
  have hpos := hr.chain.nonempty
  obtain ⟨stage, hstage⟩ := hr.exists_stage (show k - 1 < replayed.chain.size by omega)
  let replayed' : Replayed :=
    ⟨definition', chain', ⟨replayed.history.stages.insertIdx k stage.still⟩⟩
  have hpauses : replayed.Pauses replayed' k name :=
    ⟨⟨rfl, rfl, rfl, rfl, rfl, hinserts⟩, stage, hstage, rfl⟩
  refine ⟨replayed', ⟨?_, hchain', ?_, ?_⟩, hpauses⟩
  · exact Definition.ofConfig_eq_ok_iff.mpr (hresolves.insertVersion hread fresh)
  · exact (History.ofChain_eq_ok_iff (Chain.sound_of_ofDefinition hchain')).mpr
      (hpauses.sound_history hr)
  · have hlast : unshift k replayed'.chain.currentIndex = replayed.chain.currentIndex := by
      have hsize : replayed'.chain.size = replayed.chain.size + 1 := hinserts.size
      rw [Chain.currentIndex, hsize, Nat.add_sub_cancel, unshift, if_neg (by omega)]
      rfl
    have hinterfaces : ∀ name, replayed'.definition.interfaces.get? name =
        replayed.definition.interfaces.get? name := fun _ => rfl
    refine History.checkTypes_eq_ok_iff.mpr fun entry hentry layout hlayout => ?_
    rw [hpauses.layout?_eq hr, hlast] at hlayout
    rw [History.checkImplemented_congr hinterfaces]
    exact History.checkTypes_eq_ok_iff.mp h.interfaces entry hentry layout hlayout

/-- **A version without transformations costs nothing.** Wherever in the chain it is inserted, the
schema compiles, and all other versions keep their names and transformations in their order. The
nodes are the same with the same ids, but for the labels of those that are in force right before the
new version or behind it. The code and the paths are the same, up to these labels. All other
versions keep their tables, and the new one has that of the version in front of it, or behind it if
it is the first. -/
theorem compile_insertVersion_empty {workers : Nat} (h : config.compile workers = .ok c)
    (hk : k ≤ c.chain.size) (hempty : version.transformations = []) (place : Nat)
    (fresh : name ∉ config.versions) (workers' : Nat) :
    ∃ c', (config.insertVersion (c.chain.before? k) place name version fresh).compile workers' =
        .ok c' ∧
      c.chain.Inserts c'.chain k name [] ∧
      c'.graph.nodes = c.graph.nodes.map (Node.relabel fun _ => stretch k) ∧
      c'.plan.references = c.plan.references ∧
      c'.plan.paths = c.plan.paths.map (UpgradePath.relabel fun _ => stretch k) ∧
      (∀ v < c.chain.size, c'.graph.table (shift k v) = c.graph.table v) ∧
      c'.graph.table k = c'.graph.table (if k = 0 then 1 else k - 1) := by
  have hc := Compilation.sound_of_compile h
  obtain ⟨replayed', haccepts', hpauses⟩ :=
    (accepts_of_compile h).exists_pauses hk hempty place fresh
  obtain ⟨graph', plan', hbuild', -, hcompile', -⟩ := haccepts'.exists_compile workers'
  have hc' := Compilation.sound_of_compile hcompile'
  have hembeds := hpauses.embeds hc.schema
  have hback := hpauses.embeds_back hc.schema
  have hmirrors : ∀ {w}, w < replayed'.chain.size →
      c.schema.Mirrors replayed' (fun _ => stretch k) (unshift k w) w :=
    fun hw => hpauses.mirrors hc.schema hc'.schema hw
  have hidentities := hpauses.identities_eq hc.schema hc'.schema hc.graph hc'.graph
    (build_of_compile h) hbuild'
  have hsize : replayed'.chain.size = c.chain.size + 1 := hpauses.chain.size
  have hpos : 0 < c.chain.size := hc.schema.chain.nonempty
  have htable : ∀ {w}, w < replayed'.chain.size →
      graph'.table w = c.graph.table (unshift k w) := fun hw =>
    Built.table_mirrored hc.schema hc'.schema hc.graph hc'.graph hembeds hback hmirrors
      hidentities hw
  refine ⟨_, hcompile', hpauses.chain, ?_, ?_, ?_, fun v hv => ?_, ?_⟩
  · exact Built.nodes_mirrored hc.schema hc'.schema hc.graph hc'.graph hembeds hback hmirrors
      hidentities hpauses.customTypes
  · rw [Compilation.references_eq hc, Compilation.references_eq hc']
    exact hpauses.chain.registry_eq
  · have hpaths := Compilation.filter_paths_eq_map hc hc' hembeds
      (fun hlt => stretch_lt_stretch hlt)
      (fun hv => hpauses.mirrorsStep hc.schema hc'.schema hv) (p := fun _ => true)
      fun path hpath => ?_
    · rwa [List.filter_eq_self.mpr (fun _ _ => rfl)] at hpaths
    · obtain ⟨label, next, hconnects⟩ := Compilation.exists_connects hc' hpath
      obtain ⟨v, rfl⟩ := hpauses.exists_stretch_of_affected hc.schema hconnects.affected
      have hlt : stretch k v + 1 < replayed'.chain.size := hconnects.lt_size
      rw [stretch_succ, hsize] at hlt
      have hv : v + 1 < c.chain.size := (shift_lt_succ_iff hk).mp hlt
      exact iff_of_true rfl ⟨v, hv, congrArg Identity.version hconnects.source⟩
  · have hlt : shift k v < replayed'.chain.size := hsize ▸ (shift_lt_succ_iff hk).mpr hv
    dsimp only
    rw [htable hlt, unshift_shift]
  · have hneighbour : unshift k (if k = 0 then 1 else k - 1) = k - 1 := by
      unfold unshift
      split <;> split <;> omega
    have hlt : (if k = 0 then 1 else k - 1) < replayed'.chain.size := by
      split <;> omega
    dsimp only
    rw [htable hlt, htable (by omega), unshift_self, hneighbour]

/-- Between the two versions of the sample: the upgrade of `B` starts at the new version. -/
theorem compile_insertVersion_empty_sample : ∃ c c', sample.compile 1 = .ok c ∧
    (sample.insertVersion (c.chain.before? 1) 0 "c" {} (by decide)).compile 1 = .ok c' ∧
      c'.graph.nodes = c.graph.nodes.map (Node.relabel fun _ => stretch 1) ∧
      c'.graph.table 1 = c'.graph.table 0 ∧ ∃ path ∈ c'.plan.paths,
        path.source = ⟨"B", some 1⟩ ∧ path.target = ⟨"B", some 2⟩ := by
  obtain ⟨c, -, hc, hcount, -, -, -, -, hpath⟩ := exists_compile_sample
  have hsize : c.chain.size = 2 :=
    (Compilation.sound_of_compile hc).graph.versionCount_eq.symm.trans hcount
  have hempty : ({} : VersionConfig).transformations = [] := rfl
  obtain ⟨c', hc', -, hnodes, -, hpaths, -, htable⟩ :=
    compile_insertVersion_empty hc (show 1 ≤ c.chain.size by omega) hempty 0
      (show "c" ∉ sample.versions by decide) 1
  refine ⟨c, c', hc, hc', hnodes, htable,
    UpgradePath.sample.relabel fun _ => stretch 1, ?_, rfl, rfl⟩
  rw [hpaths]
  exact List.mem_map_of_mem hpath

end Config

end SchemaEvolution

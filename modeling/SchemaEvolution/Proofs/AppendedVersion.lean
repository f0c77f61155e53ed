import SchemaEvolution.Proofs.Insertion
import SchemaEvolution.Proofs.MirroredPaths
import SchemaEvolution.Proofs.Totality

/-!
# A new version leaves the old ones as they are

When a version is added behind the current one, the history of the schema up to then stays: the
layouts, the changed sets, the code and its places, and all upgrade paths. Only the types that the
new version leaves alone get a new label where they had that of the former current version, since
they are in force for one version more.

## Main definitions

* `Config.appendVersion`: the schema with one more version at the end
* `Relabeling.extend`: the label of a type that stays in force for one more version

## Main results

* `Replayed.Inserts.stages_eq`: the stages of the old versions
* `Replayed.Inserts.mirrors_last`: the old versions are the same, up to labels
* `Config.compile_appendVersion`: a new version leaves the old ones as they are
-/

namespace SchemaEvolution

/-- **The schema with one more version at the end**: it continues the current one and is current
itself. Its entry is the one at `place`. -/
def Config.appendVersion (config : Config) (place : Nat) (name : String) (version : VersionConfig)
    (fresh : name ∉ config.versions) : Config :=
  { config with
    currentVersion := name
    versions := config.versions.insertAt place name
      { version with previous := some config.currentVersion } fresh }

/-! ## The schema -/

/-- No version continues the current one. -/
theorem Chain.Enumerates.previous_ne_current {definition : Definition} {order : List String}
    (h : Enumerates definition order) {other : String} {declared : VersionDecl}
    (hdeclared : definition.versions.get? other = some declared) :
    declared.previous ≠ some definition.currentVersion := by
  intro hprevious
  have hlast := h.last
  rw [List.getLast?_eq_getElem?] at hlast
  obtain ⟨k, hlt, hk⟩ :=
    List.mem_iff_getElem.mp ((h.mem other).mpr (OrderedMap.mem_of_get? hdeclared))
  obtain ⟨found, hfound, hfront⟩ :=
    h.exists_previous (hk ▸ List.getElem?_eq_getElem hlt)
  obtain rfl := Option.some.inj (hdeclared.symm.trans hfound)
  have hplace := h.eq_of_listedBefore hlast (hfront.symm.trans hprevious)
  omega

/-- Behind the current version there is no link to exchange. -/
theorem Config.appendVersion_eq {config : Config} {definition : Definition} {chain : Chain}
    (h : Definition.Resolves config definition) (hchain : Chain.ofDefinition definition = .ok chain)
    {place : Nat} {name : String} {version : VersionConfig} (fresh : name ∉ config.versions) :
    config.appendVersion place name version fresh =
      config.insertVersion (some config.currentVersion) place name version fresh := by
  obtain ⟨order, horder, -⟩ := Chain.enumerates_of_ofDefinition hchain
  have hkept : config.versions.map
      (VersionConfig.relink (some config.currentVersion) name) = config.versions := by
    apply OrderedMap.ext
    refine (List.map_congr_left fun entry hentry => ?_).trans (List.map_id _)
    obtain ⟨⟨other, declared⟩, hdeclared, -, hread⟩ :=
      exists_right_of_forall₂ (OrderedMap.traverse_eq_ok_iff.mp h.versions) hentry
    have hprevious := horder.previous_ne_current (OrderedMap.get?_eq_some_iff.mpr hdeclared)
    rw [(Definition.readVersion_eq_ok_iff.mp hread).1, h.currentVersion] at hprevious
    rw [VersionConfig.relink, if_neg hprevious]
    rfl
  simp only [appendVersion, insertVersion, hkept, if_pos]

/-- The current version of a chain is the one in front of its end. -/
theorem Chain.before?_size {definition : Definition} {chain : Chain}
    (h : Chain.ofDefinition definition = .ok chain) :
    chain.before? chain.size = some definition.currentVersion := by
  obtain ⟨order, horder, rfl⟩ := enumerates_of_ofDefinition h
  have hlast := horder.last
  rw [List.getLast?_eq_getElem?] at hlast
  have hlt := (List.getElem?_eq_some_iff.mp hlast).1
  rw [before?_ofOrder, size_ofOrder, listedBefore, if_neg (by omega), hlast]

/-- **Both schemas have the same versions**, but for the new one at the end. -/
theorem Config.Accepts.inserts {config : Config} {replayed replayed' : Replayed}
    (h : config.Accepts replayed) {place : Nat} {name : String} {version : VersionConfig}
    {fresh : name ∉ config.versions}
    (h' : (config.appendVersion place name version fresh).Accepts replayed') :
    ∃ steps, replayed.Inserts replayed' replayed.chain.size name steps := by
  have hresolves := Definition.ofConfig_eq_ok_iff.mp h.definition
  have hdefinition := h'.definition
  rw [appendVersion_eq hresolves h.chain, Definition.ofConfig_eq_ok_iff] at hdefinition
  obtain ⟨declared, fresh', -, hsame⟩ := hresolves.exists_of_insertVersion hdefinition
  have hpos : 0 < replayed.chain.size := (Chain.sound_of_ofDefinition h.chain).nonempty
  have hnotRoot : replayed.chain.size = 0 → declared.transformations = [] := by
    intro hzero
    omega
  obtain ⟨chain, hchain, hinserts⟩ :=
    Chain.exists_ofDefinition_insertVersion h.chain (Nat.le_refl _) hnotRoot fresh'
  rw [Chain.before?_size h.chain, hresolves.currentVersion, ← hsame] at hchain
  obtain rfl := Except.ok.inj (hchain.symm.trans h'.chain)
  refine ⟨declared.transformations, ?_, ?_, ?_, ?_, ?_, hinserts⟩ <;> rw [hsame] <;> rfl

/-! ## The old versions -/

/-- **The label of a type that stays in force for one more version**, where `changed` are the types
that do not. -/
def Relabeling.extend (last : Nat) (changed : NameSet) : Relabeling := fun name label =>
  if label = last ∧ name ∉ changed then label + 1 else label

namespace Replayed.Inserts

variable {replayed replayed' : Replayed} {name : String} {steps : List Step}
  (h : replayed.Inserts replayed' replayed.chain.size name steps) (hr : replayed.Sound)
  (hr' : replayed'.Sound)

include h

/-- The old versions have their names and their transformations. -/
theorem exists_version {v : Nat} {version : Version}
    (hversion : replayed.chain.get? v = some version) :
    ∃ version', replayed'.chain.get? v = some version' ∧ version'.name = version.name ∧
      version'.transformations = version.transformations := by
  have hlt : v < replayed.chain.size := (List.getElem?_eq_some_iff.mp hversion).1
  have hkept := h.chain.kept hversion
  rwa [shift, if_pos hlt] at hkept

include hr hr'

/-- **The stages of the old versions stay as they are.** -/
theorem stages_eq {v : Nat} (hv : v < replayed.chain.size) :
    replayed'.history.stages[v]? = replayed.history.stages[v]? := by
  induction v with
  | zero => exact h.stages_zero hr hr'
  | succ v ih =>
    have hbefore := ih (Nat.lt_of_succ_lt hv)
    obtain ⟨⟨layouts, changed, transformations⟩, hafter⟩ := hr.exists_stage hv
    obtain ⟨⟨layouts', changed', transformations'⟩, hafter'⟩ :=
      hr'.exists_stage (v := v + 1) (by rw [h.chain.size]; omega)
    obtain ⟨version, before, hversion, hstage, hreplay, hsteps⟩ := hr.exists_replay hafter
    obtain ⟨version', before', hversion', hstage', hreplay', hsteps'⟩ := hr'.exists_replay hafter'
    obtain ⟨found, hfound, hname, htransformations⟩ := h.exists_version hversion
    obtain rfl := Option.some.inj (hversion'.symm.trans hfound)
    obtain rfl := Option.some.inj (hstage'.symm.trans (hbefore.trans hstage))
    rw [hname, htransformations, h.catalog, hreplay] at hreplay'
    obtain ⟨hlayouts, hchanged⟩ := Prod.mk.inj (Except.ok.inj hreplay')
    dsimp only at hsteps hsteps' hlayouts hchanged
    rw [hafter, hafter', hlayouts, hchanged, hsteps, hsteps', htransformations]

/-- **The layouts of the old versions stay as they are.** -/
theorem layout?_eq {v : Nat} (hv : v < replayed.chain.size) (type : String) :
    replayed'.history.layout? v type = replayed.history.layout? v type := by
  rw [History.layout?, History.layout?, h.stages_eq hr hr' hv]

theorem embeds_last : replayed.Embeds replayed' := by
  refine h.embeds fun {v type layout} hlayout => ⟨v, ?_⟩
  obtain ⟨stage, hstage, -⟩ := History.layout?_eq_some_iff.mp hlayout
  rw [h.layout?_eq hr hr' (hr.lt_size_of_stage hstage), hlayout]

/-- **The same types change behind the old versions**, but for the last of them. -/
theorem affected_iff_last {v : Nat} (hv : v + 1 < replayed.chain.size) {type : String}
    (htype : type ∈ replayed.blueprint.names) :
    replayed'.Affected v type ↔ replayed.Affected v type := by
  refine (h.embeds_last hr hr').affected_iff hr hr' htype (h.layout?_eq hr hr' hv) fun target => ?_
  rw [Targets, Targets, h.stages_eq hr hr' hv]

/-- **The old versions are the same up to labels**: a type keeps its label, unless that was the last
version and the type is in force for the new one as well. -/
theorem mirrors_last {changed : NameSet}
    (hchanged : ∀ name, name ∈ changed ↔ replayed'.Affected replayed.chain.currentIndex name)
    {v : Nat} (hv : v < replayed.chain.size) :
    replayed.Mirrors replayed' (.extend replayed.chain.currentIndex changed) v v where
  lt_size := hv
  lt_size' := by
    rw [h.chain.size]
    omega
  layout := h.layout?_eq hr hr' hv
  label {type label} htype hlabel := by
    have hsize : replayed'.chain.size = replayed.chain.size + 1 := h.chain.size
    have hlast : replayed.chain.currentIndex = replayed.chain.size - 1 := rfl
    have hlt := hlabel.lt_size
    have hle := hlabel.le
    have hstays : ∀ {w}, v ≤ w → w < label → ¬replayed'.Affected w type := fun hle hlt =>
      mt (h.affected_iff_last hr hr' (by omega) htype).mp (hlabel.stays hle hlt)
    unfold Relabeling.extend
    split
    · rename_i hkept
      obtain ⟨hend, hnot⟩ := hkept
      refine ⟨by omega, by omega, .inl (by omega), fun {w} hle hlt => ?_⟩
      rcases Nat.eq_or_lt_of_le (Nat.le_of_lt_succ hlt) with rfl | hlt
      · rwa [hchanged, ← hend] at hnot
      · exact hstays hle hlt
    · rename_i hkept
      refine ⟨hle, by omega, .inr ?_, hstays⟩
      by_cases hend : label = replayed.chain.currentIndex
      · rw [hend, ← hchanged]
        exact not_not.mp fun hnot => hkept ⟨hend, hnot⟩
      · have hbefore : label + 1 < replayed.chain.size := by omega
        exact (h.affected_iff_last hr hr' hbefore htype).mpr
          (hlabel.ends.resolve_left (Nat.ne_of_lt hbefore))

/-- The step behind an old version is the same up to labels. -/
theorem mirrorsStep_last {changed : NameSet}
    (hchanged : ∀ name, name ∈ changed ↔ replayed'.Affected replayed.chain.currentIndex name)
    {v : Nat} (hv : v + 1 < replayed.chain.size) :
    replayed.MirrorsStep replayed' (.extend replayed.chain.currentIndex changed) v v where
  before := h.mirrors_last hr hr' hchanged (Nat.lt_of_succ_lt hv)
  after := h.mirrors_last hr hr' hchanged hv
  version := by
    have hversion : replayed.chain.get? (v + 1) = some _ := List.getElem?_eq_getElem hv
    obtain ⟨version', hversion', hname, hsteps⟩ := h.exists_version hversion
    exact ⟨_, version', hversion, hversion', hname, hsteps⟩
  code {code id} hcode := by
    obtain ⟨rest, hrest⟩ := h.chain.prefix_registry
    rw [← hrest]
    obtain ⟨hlt, hget, hfirst⟩ := List.idxOf?_eq_some_iff.mp hcode
    refine List.idxOf?_eq_some_iff.mpr ⟨by rw [List.length_append]; omega, ?_, fun w hw => ?_⟩
    · rw [List.getElem_append_left hlt, hget]
    · rw [List.getElem_append_left (Nat.lt_trans hw hlt)]
      exact hfirst w hw

end Replayed.Inserts

/-! ## The whole compilation -/

namespace Config

variable {config : Config} {c c' : Compilation} {place : Nat} {name : String}
  {version : VersionConfig}

/-- **A new version leaves the old ones as they are.** Up to the former current version all layouts
are the same. Before it the changed sets are the same, as far as the names were there. The code that
is called keeps its places. The paths from before it are the same and in the same order, but for the
label of the former current version: a type that the new version leaves alone is in force for the
new version too. -/
theorem compile_appendVersion {fresh : name ∉ config.versions} {workers workers' : Nat}
    (h : config.compile workers = .ok c)
    (h' : (config.appendVersion place name version fresh).compile workers' = .ok c') :
    (∀ v < c.chain.size, ∀ type, c'.history.layout? v type = c.history.layout? v type) ∧
    (∀ v < c.chain.currentIndex, ∃ changed changed', c.graph.changedAt? v = some changed ∧
      c'.graph.changedAt? v = some changed' ∧
        ∀ type, type ∈ changed ↔ type ∈ changed' ∧ c.graph.IsName type) ∧
    c.plan.references <+: c'.plan.references ∧
    ∃ changed, c'.graph.changedAt? c.chain.currentIndex = some changed ∧
      (c'.plan.paths.filter fun path => path.source.version.any (· < c.chain.currentIndex)) =
        c.plan.paths.map (UpgradePath.relabel (.extend c.chain.currentIndex changed)) := by
  have hc := Compilation.sound_of_compile h
  have hc' := Compilation.sound_of_compile h'
  obtain ⟨steps, hinserts⟩ := (accepts_of_compile h).inserts (accepts_of_compile h')
  have hsize : c'.chain.size = c.chain.size + 1 := hinserts.chain.size
  have hpos : 0 < c.chain.size := hc.schema.chain.nonempty
  have hcurrent : c.chain.currentIndex = c.chain.size - 1 := rfl
  obtain ⟨last, hlast, hmem⟩ :=
    Compilation.exists_changedAt hc' (show c.chain.currentIndex < c'.chain.size by omega)
  have hembeds := hinserts.embeds_last hc.schema hc'.schema
  refine ⟨fun v hv type => hinserts.layout?_eq hc.schema hc'.schema hv type, fun v hv => ?_, ?_,
    last, hlast, ?_⟩
  · have hv : v + 1 < c.schema.chain.size := Nat.add_lt_of_lt_sub hv
    obtain ⟨changed, hget, hchanged⟩ := Compilation.exists_changedAt hc (Nat.lt_of_succ_lt hv)
    obtain ⟨changed', hget', hchanged'⟩ :=
      Compilation.exists_changedAt hc' (show v < c'.chain.size by omega)
    refine ⟨changed, changed', hget, hget', fun type => ?_⟩
    rw [hchanged, hchanged', hc.graph.isName_iff hc.schema]
    constructor
    · intro haffected
      have htype := hc.schema.mem_names_of_affected haffected
      exact ⟨(hinserts.affected_iff_last hc.schema hc'.schema hv htype).mpr haffected, htype⟩
    · rintro ⟨haffected, htype⟩
      exact (hinserts.affected_iff_last hc.schema hc'.schema hv htype).mp haffected
  · rw [Compilation.references_eq hc, Compilation.references_eq hc']
    exact hinserts.chain.prefix_registry
  · have hsteps : ∀ {v}, v + 1 < c.schema.chain.size →
        c.schema.MirrorsStep c'.schema (.extend c.chain.currentIndex last) v (id v) :=
      fun hv => hinserts.mirrorsStep_last hc.schema hc'.schema hmem hv
    refine Compilation.filter_paths_eq_map hc hc' hembeds (fun hlt => hlt) hsteps
      fun path hpath => ?_
    obtain ⟨label, next, hconnects⟩ := Compilation.exists_connects hc' hpath
    rw [hconnects.source]
    simp only [Option.any_some, decide_eq_true_eq, Option.some.injEq]
    constructor
    · intro hlt
      exact ⟨label, Nat.add_lt_of_lt_sub hlt, rfl⟩
    · rintro ⟨v, hv, rfl⟩
      exact Nat.lt_sub_of_add_lt hv

/-- The sample with a third version, which transforms `B` alone. -/
def sampleAppended : Config :=
  sample.appendVersion 0 "c" { transformations := [⟨"B", .remove "m"⟩] } (by decide)

set_option maxRecDepth 20000 in
theorem checkInterfaces_sampleAppended :
    (do
      let replayed ← sampleAppended.replay
      replayed.history.checkInterfaces replayed.definition replayed.chain.currentIndex) =
    .ok () := by
  cbv

set_option maxRecDepth 20000 in
theorem changedAt_sampleAppended :
    (do
      let replayed ← sampleAppended.replay
      let graph ← Graph.build 1 replayed.definition replayed.chain replayed.history
      return graph.changedAt? 1) = .ok (some (.ofNames ["B"])) := by
  simp only [Graph.build_eq]
  cbv

/-- The sample with the third version compiles. -/
theorem exists_compile_sampleAppended : ∃ c, sampleAppended.compile 1 = .ok c ∧
    c.graph.changedAt? 1 = some (.ofNames ["B"]) := by
  obtain ⟨replayed, hreplay, hinterfaces⟩ := bind_eq_ok.mp checkInterfaces_sampleAppended
  obtain ⟨replayed', hreplay', h⟩ := bind_eq_ok.mp changedAt_sampleAppended
  obtain rfl := Except.ok.inj (hreplay.symm.trans hreplay')
  obtain ⟨graph, hgraph, h⟩ := bind_eq_ok.mp h
  obtain ⟨graph', plan, hgraph', -, hcompile, -⟩ :=
    (accepts_iff.mpr ⟨hreplay, hinterfaces⟩).exists_compile 1
  obtain rfl := Except.ok.inj (hgraph.symm.trans hgraph')
  exact ⟨_, hcompile, Except.ok.inj h⟩

/-- The upgrade of `B` over the first two versions has the new label of `A` in it. -/
theorem compile_appendVersion_sample : ∃ c c', sample.compile 1 = .ok c ∧
    sampleAppended.compile 1 = .ok c' ∧ c'.graph.changedAt? 1 = some (.ofNames ["B"]) ∧
      UpgradePath.sample.relabel (.extend 1 (.ofNames ["B"])) ∈ c'.plan.paths := by
  obtain ⟨c, -, hc, hcount, -, -, -, -, hpath⟩ := exists_compile_sample
  obtain ⟨c', hc', hchanged⟩ := exists_compile_sampleAppended
  obtain ⟨-, -, -, changed, hget, hpaths⟩ := compile_appendVersion hc hc'
  have hcurrent : c.chain.currentIndex = 1 := by
    have hsize : c.graph.versionCount = c.chain.size :=
      (Compilation.sound_of_compile hc).graph.versionCount_eq
    rw [Chain.currentIndex, ← hsize, hcount]
  rw [hcurrent, hchanged] at hget
  obtain rfl := Option.some.inj hget
  rw [hcurrent] at hpaths
  refine ⟨c, c', hc, hc', hchanged, ?_⟩
  have hmem := List.mem_map_of_mem (f := UpgradePath.relabel (.extend 1 (.ofNames ["B"]))) hpath
  rw [← hpaths] at hmem
  exact (List.mem_filter.mp hmem).1

end Config

end SchemaEvolution

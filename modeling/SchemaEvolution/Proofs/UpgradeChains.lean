import SchemaEvolution.Proofs.Identities
import SchemaEvolution.Text.Characters

/-!
# Upgrade chains go along the labels

An upgrade chain looks up the node behind its cursor and goes on from the label of that node. So it
leads through the labels of a name that lie behind its start, in order, and it arrives exactly at an
end that is a label itself. The loop comes nearer to its end with each node and computes no number
beyond it, so it ends on numbers of a fixed width too.

## Main definitions

* `identitiesWithin`: the identities of the labels between two versions
* `Graph.ChainsAlong`: the upgrade chains of a name go along its labels

## Main results

* `Built.upgradeChain_of_mem`, `Built.upgradeChain_of_not_mem`: where a chain arrives
* `Built.upgradeChain_append`: chains are put together at labels
* `Built.upgradeChain_past`: a chain beyond the current version finds no node
* `Built.eq_of_loops`, `Built.loops_upgradeChain`: the loop ends with the chain, without leaving the
  range of its numbers
* `Compilation.upgradeChain_exact`: upgrade chains are the labels between two versions
-/

namespace SchemaEvolution

/-! ## Labels between two versions -/

/-- **The identities of the labels between two versions**, the first one excluded. -/
def identitiesWithin (name : String) (labels : List Nat) (first last : Nat) : List Identity :=
  (labels.filter fun label => first < label ∧ label ≤ last).map fun label => ⟨name, some label⟩

variable {name : String} {labels : List Nat} {first mid last label : Nat}

theorem identitiesWithin_of_le (h : last ≤ first) :
    identitiesWithin name labels first last = [] := by
  have hnone : (labels.filter fun label => first < label ∧ label ≤ last) = [] :=
    List.filter_eq_nil_iff.mpr fun label _ => by
      rw [decide_eq_true_iff]
      omega
  rw [identitiesWithin, hnone, List.map_nil]

/-- The least label behind the first version comes first. -/
theorem identitiesWithin_eq_cons (hsorted : labels.Pairwise (· < ·)) (hmem : label ∈ labels)
    (hahead : first < label) (hleast : ∀ other ∈ labels, first < other → label ≤ other)
    (hle : label ≤ last) : identitiesWithin name labels first last =
      ⟨name, some label⟩ :: identitiesWithin name labels label last := by
  have hfilter : (labels.filter fun other => first < other ∧ other ≤ last) =
      label :: labels.filter fun other => label < other ∧ other ≤ last := by
    refine (hsorted.filter _).eq_of_mem_iff (List.pairwise_cons.mpr ⟨?_, hsorted.filter _⟩) ?_
    · intro other hother
      exact (of_decide_eq_true (List.mem_filter.mp hother).2).1
    · intro other
      simp only [List.mem_filter, List.mem_cons, decide_eq_true_eq]
      constructor
      · rintro ⟨hother, hbehind, hend⟩
        have hfirst := hleast other hother hbehind
        rcases Nat.eq_or_lt_of_le hfirst with hsame | hlater
        · exact .inl hsame.symm
        · exact .inr ⟨hother, hlater, hend⟩
      · rintro (rfl | ⟨hother, hlater, hend⟩)
        · exact ⟨hmem, hahead, hle⟩
        · exact ⟨hother, hahead.trans hlater, hend⟩
  rw [identitiesWithin, hfilter, List.map_cons, identitiesWithin]

/-! ## Chains of names that evolve -/

namespace Built

variable {replayed : Replayed} {graph : Graph}

theorem le_current (h : label ∈ graph.starts name ++ [graph.current]) : label ≤ graph.current := by
  rcases List.mem_append.mp h with hstart | hlast
  · exact Nat.le_of_lt (List.mem_range.mp (List.mem_filter.mp hstart).1)
  · exact Nat.le_of_eq (List.mem_singleton.mp hlast)

variable (hg : Built replayed 0 graph.sketch)

include hg

theorem nodeAt_eq_error (h : graph.current < last) :
    graph.nodeAt name last = .error (.typeNotFound name last) := by
  have hcurrent := hg.current_eq
  have hnone : graph.index.node? name last = none := by
    refine Option.eq_none_iff_forall_ne_some.mpr fun id hid => ?_
    have hsize := (hg.mem_of_node? hid).1
    omega
  rw [Graph.nodeAt, Index.resolve_eq_error_iff.mpr ⟨hnone, rfl⟩]
  rfl

section Evolving

variable (hname : name ∈ replayed.blueprint.names)
  (hevolves : replayed.blueprint.evolves name = true)

include hname hevolves

/-- Before the current version a chain goes on from the least label ahead. -/
theorem exists_next_label (h : first < graph.current) :
    ∃ label ∈ graph.starts name ++ [graph.current], first < label ∧
      (∀ other ∈ graph.starts name ++ [graph.current], first < other → label ≤ other) ∧
      ∀ last, first < last → graph.upgradeChain name first last =
        if last < label then
          .error (.internal s!"upgrade chain of '{name}' skips past version {last}")
        else (graph.upgradeChain name label last).map (⟨name, some label⟩ :: ·) := by
  have hcurrent := hg.current_eq
  have hsize : first + 1 < replayed.chain.size := by omega
  obtain ⟨node, label, hnode, hlabel, hidentity⟩ := hg.exists_nodeAt_labelAt hsize hname hevolves
  obtain ⟨hmem, hleast⟩ := hg.le_label hlabel
  refine ⟨label, hmem, hlabel.le, hleast, fun last hlast => ?_⟩
  have hversion : node.version = some label := congrArg Identity.version hidentity
  rw [Graph.upgradeChain_of_version hlast hnode hversion hlabel.le, hidentity]

/-- **A chain arrives at every label**, through the labels before it. -/
theorem upgradeChain_of_mem (h : last ∈ graph.starts name ++ [graph.current]) :
    graph.upgradeChain name first last =
      .ok (identitiesWithin name (graph.starts name ++ [graph.current]) first last) := by
  have hlast := le_current h
  -- on the way that is left: each label is nearer to the end
  induction hleft : last - first using Nat.strong_induction_on generalizing first with
  | _ left ih =>
    rcases Nat.lt_or_ge first last with hfirst | hdone
    · obtain ⟨label, hmem, hahead, hleast, hnext⟩ :=
        hg.exists_next_label hname hevolves (hfirst.trans_le hlast)
      have hle := hleast last h hfirst
      rw [hnext last hfirst, if_neg (Nat.not_lt.mpr hle), ih (last - label) (by omega) rfl,
        identitiesWithin_eq_cons pairwise_labels hmem hahead hleast hle]
      rfl
    · rw [upgradeChain_of_le hdone, identitiesWithin_of_le hdone]

/-- **A chain skips an end that is no label.** -/
theorem upgradeChain_of_not_mem (hfirst : first < last) (hlast : last ≤ graph.current)
    (h : last ∉ graph.starts name ++ [graph.current]) : graph.upgradeChain name first last =
      .error (.internal s!"upgrade chain of '{name}' skips past version {last}") := by
  induction hleft : last - first using Nat.strong_induction_on generalizing first with
  | _ left ih =>
    obtain ⟨label, hmem, hahead, -, hnext⟩ :=
      hg.exists_next_label hname hevolves (hfirst.trans_le hlast)
    have hother : label ≠ last := fun hsame => h (hsame ▸ hmem)
    rw [hnext last hfirst]
    split
    · rfl
    · rw [ih (last - label) (by omega) (by omega) rfl]
      rfl

/-- **Chains are put together at labels.** -/
theorem upgradeChain_append (hmid : mid ∈ graph.starts name ++ [graph.current])
    (hfirst : first ≤ mid) (hlast : mid ≤ last) :
    (do
      let steps ← graph.upgradeChain name first mid
      let rest ← graph.upgradeChain name mid last
      return steps ++ rest) = graph.upgradeChain name first last := by
  induction hleft : mid - first using Nat.strong_induction_on generalizing first with
  | _ left ih =>
    rcases Nat.eq_or_lt_of_le hfirst with rfl | hbefore
    · rw [upgradeChain_of_le (Nat.le_refl first), ok_bind]
      cases graph.upgradeChain name first last <;> rfl
    · obtain ⟨label, -, hahead, hleast, hnext⟩ :=
        hg.exists_next_label hname hevolves (hbefore.trans_le (le_current hmid))
      have hle := hleast mid hmid hbefore
      rw [hnext mid hbefore, if_neg (Nat.not_lt.mpr hle), hnext last (hbefore.trans_le hlast),
        if_neg (Nat.not_lt.mpr (hle.trans hlast)), ← ih (mid - label) (by omega) hle rfl]
      cases graph.upgradeChain name label mid with
      | error e => rfl
      | ok steps => cases graph.upgradeChain name mid last <;> rfl

/-- **A chain beyond the current version finds no node** behind the last one. -/
theorem upgradeChain_past (hfirst : first < last) (hlast : graph.current < last) :
    graph.upgradeChain name first last =
      .error (.typeNotFound name (max first graph.current + 1)) := by
  induction hleft : last - first using Nat.strong_induction_on generalizing first with
  | _ left ih =>
    rcases Nat.lt_or_ge first graph.current with hbefore | hbehind
    · obtain ⟨label, hmem, hahead, -, hnext⟩ := hg.exists_next_label hname hevolves hbefore
      have hle := le_current hmem
      rw [hnext last hfirst, if_neg (by omega), ih (last - label) (by omega) (by omega) rfl,
        Nat.max_eq_right hle, Nat.max_eq_right (Nat.le_of_lt hbefore)]
      rfl
    · rw [Graph.upgradeChain, dif_pos hfirst, hg.nodeAt_eq_error (by omega),
        Nat.max_eq_left hbehind]

end Evolving

/-! ## Chains of leaves -/

/-- **The chain of a leaf** leads through no nodes. -/
theorem upgradeChain_of_leaf (hr : replayed.Sound) (hname : name ∈ replayed.blueprint.names)
    (hleaf : replayed.blueprint.evolves name = false) (hlast : last ≤ graph.current) :
    graph.upgradeChain name first last = .ok [] := by
  rcases Nat.lt_or_ge first last with hfirst | hdone
  · have hcurrent := hg.current_eq
    obtain ⟨node, hversion, hall⟩ := hg.nodeAt_leaf hr hname hleaf
    rw [Graph.upgradeChain, dif_pos hfirst, hall (first + 1) (by omega)]
    dsimp only
    rw [hversion]
  · exact upgradeChain_of_le hdone

end Built

/-! ## The loop on numbers of a fixed width -/

namespace Built

variable {replayed : Replayed} {graph : Graph} (hg : Built replayed 0 graph.sketch)

include hg

/-- No node is labelled with a version before those that it is in force for. -/
theorem le_of_nodeAt {node : Node} {version : Nat} (hnode : graph.nodeAt name version = .ok node)
    (hlabel : node.version = some label) : version ≤ label := by
  obtain ⟨hid, -, -⟩ := hg.represents_of_nodeAt hnode
  obtain ⟨label', hlabel'⟩ := Replayed.exists_labelAt (hg.mem_of_node? hid).1 name
  have hversion := hg.version_eq_of_labelAt hnode hlabel'
  rw [hlabel] at hversion
  split at hversion
  · exact Option.some.inj hversion ▸ hlabel'.le
  · cases hversion

/-- What comes out of the loop is the upgrade chain. -/
theorem eq_of_loops {result : Except SchemaError (List Identity)}
    (h : graph.Loops name last first result) : result = graph.upgradeChain name first last := by
  induction h with
  | done h => rw [upgradeChain_of_le h]
  | missing h _ hnode => rw [Graph.upgradeChain, dif_pos h, hnode]
  | leaf h _ hnode hversion =>
    rw [Graph.upgradeChain, dif_pos h, hnode]
    dsimp only
    rw [hversion]
  | skip h _ hnode hversion hpast =>
    rw [Graph.upgradeChain_of_version h hnode hversion (hg.le_of_nodeAt hnode hversion),
      if_pos hpast]
  | step h _ hnode hversion hle _ ih =>
    rw [Graph.upgradeChain_of_version h hnode hversion (hg.le_of_nodeAt hnode hversion),
      if_neg (Nat.not_lt.mpr hle), ih]

/-- **The loop ends** with the upgrade chain, and leaves the range of its numbers nowhere. -/
theorem loops_upgradeChain (hfits : Word.fits 64 last = true) (first : Nat) :
    graph.Loops name last first (graph.upgradeChain name first last) := by
  have hnext : ∀ {cursor : Nat}, cursor < last → Word.fits 64 (cursor + 1) = true := by
    intro cursor hcursor
    simp only [Word.fits, decide_eq_true_eq] at hfits ⊢
    omega
  fun_induction Graph.upgradeChain graph name first last with
  | case1 cursor hcursor e hnode => exact .missing hcursor (hnext hcursor) hnode
  | case2 cursor hcursor node hnode hversion => exact .leaf hcursor (hnext hcursor) hnode hversion
  | case3 cursor hcursor node hnode label hversion hpast =>
    exact .skip hcursor (hnext hcursor) hnode hversion hpast
  | case4 cursor hcursor node hnode label hversion hle hahead ih =>
    exact .step hcursor (hnext hcursor) hnode hversion (Nat.not_lt.mp hle) ih
  | case5 cursor hcursor node hnode label hversion hle hbehind =>
    exact absurd (hg.le_of_nodeAt hnode hversion) hbehind
  | case6 cursor hdone => exact .done (Nat.not_lt.mp hdone)

end Built

/-! ## Compiled schemas -/

/-- **The upgrade chains of a name go along its labels.** -/
structure Graph.ChainsAlong (graph : Graph) (name : String) (labels : List Nat) : Prop where
  /-- The labels are in ascending order. -/
  ascending : labels.Pairwise (· < ·)
  /-- Up to the current version a chain arrives exactly at the labels, through those behind its
  start. -/
  exact : ∀ first last, first < last → last ≤ graph.current → ∀ steps,
    graph.upgradeChain name first last = .ok steps ↔
      last ∈ labels ∧ steps = identitiesWithin name labels first last
  /-- At any other version it fails, since it skips past its end. -/
  skips : ∀ first last, first < last → last ≤ graph.current → last ∉ labels →
    graph.upgradeChain name first last =
      .error (.internal s!"upgrade chain of '{name}' skips past version {last}")
  /-- Chains are put together at a label, whether they arrive or fail. -/
  append : ∀ first mid last, mid ∈ labels → first ≤ mid → mid ≤ last →
    (do
      let steps ← graph.upgradeChain name first mid
      let rest ← graph.upgradeChain name mid last
      return steps ++ rest) = graph.upgradeChain name first last
  /-- Beyond the current version a chain finds no node. -/
  past : ∀ first last, first < last → graph.current < last →
    graph.upgradeChain name first last =
      .error (.typeNotFound name (max first graph.current + 1))

theorem Built.chainsAlong {replayed : Replayed} {graph : Graph}
    (hg : Built replayed 0 graph.sketch) (hname : name ∈ replayed.blueprint.names)
    (hevolves : replayed.blueprint.evolves name = true) :
    graph.ChainsAlong name (graph.starts name ++ [graph.current]) where
  ascending := pairwise_labels
  exact first last hfirst hlast steps := by
    by_cases h : last ∈ graph.starts name ++ [graph.current]
    · rw [hg.upgradeChain_of_mem hname hevolves h, and_iff_right h, Except.ok.injEq, eq_comm]
    · rw [hg.upgradeChain_of_not_mem hname hevolves hfirst hlast h]
      exact iff_of_false nofun fun hsteps => h hsteps.1
  skips _ _ := hg.upgradeChain_of_not_mem hname hevolves
  append _ _ _ := hg.upgradeChain_append hname hevolves
  past _ _ := hg.upgradeChain_past hname hevolves

/-- **Upgrade chains are the labels between two versions.** Every name of the graph has labels or
none. If it has any, an upgrade chain up to the current version arrives exactly at them, and leads
through those that lie behind its start, in ascending order; chains are put together at every label
between their ends, and beyond the current version they fail. If it has none, chains up to the
current version are empty. Chains that do not lead forward are empty for any name. For any name and
any numbers of 64 bits, the loop ends with the chain and computes no number that does not fit. -/
theorem Compilation.upgradeChain_exact {config : Config} {workers : Nat} {c : Compilation}
    (h : config.compile workers = .ok c) :
    (∀ name, c.graph.IsName name → ∃ labels, c.graph.labels name = .ok labels ∧
      (labels ≠ [] → c.graph.ChainsAlong name labels) ∧
      (labels = [] → ∀ first last, first < last → last ≤ c.graph.current →
        c.graph.upgradeChain name first last = .ok [])) ∧
    (∀ name first last, last ≤ first → c.graph.upgradeChain name first last = .ok []) ∧
    ∀ name first last, Word.fits 64 first = true → Word.fits 64 last = true → ∀ result,
      c.graph.Loops name last first result ↔ result = c.graph.upgradeChain name first last := by
  have hc := sound_of_compile h
  refine ⟨fun name hname => ?_, fun name first last hle => Built.upgradeChain_of_le hle,
    fun name first last _ hfits result => ⟨hc.graph.eq_of_loops, ?_⟩⟩
  · have hmem := (hc.graph.isName_iff hc.schema).mp hname
    cases hevolves : c.schema.blueprint.evolves name with
    | true =>
      refine ⟨_, hc.graph.labels_eq hc.schema hmem hevolves,
        fun _ => hc.graph.chainsAlong hmem hevolves, fun hnone => ?_⟩
      exact absurd hnone (List.append_ne_nil_of_right_ne_nil _ (List.cons_ne_nil _ _))
    | false =>
      exact ⟨[], hc.graph.labels_of_leaf hc.schema hmem hevolves, fun hne => absurd rfl hne,
        fun _ first last _ hlast => hc.graph.upgradeChain_of_leaf hc.schema hmem hevolves hlast⟩
  · rintro rfl
    exact hc.graph.loops_upgradeChain hfits first

/-- In the sample the chain of `B` from its first version leads to the second one. -/
theorem Compilation.upgradeChain_exact_sample : ∃ c labels, Config.sample.compile 1 = .ok c ∧
    c.graph.IsName "B" ∧ c.graph.labels "B" = .ok labels ∧ labels ≠ [] ∧
      c.graph.upgradeChain "B" 0 1 = .ok [⟨"B", some 1⟩] ∧
        c.graph.Loops "B" 1 0 (.ok [⟨"B", some 1⟩]) := by
  obtain ⟨c, layout, h, hcount, hname, hlayout, -⟩ := Config.exists_compile_sample
  obtain ⟨hnames, -, hloops⟩ := Compilation.upgradeChain_exact h
  obtain ⟨labels, hlabels, hchains, -⟩ := hnames "B" hname
  have hc := Compilation.sound_of_compile h
  have hcurrent : c.graph.current = 1 := by rw [Graph.current, hcount]
  have hbase : c.schema.definition.catalog.category? "B" = some .base :=
    (hc.schema.layout?_isSome_iff hc.schema.chain.nonempty).mp (Option.isSome_of_eq_some hlayout)
  have hevolves : c.schema.blueprint.evolves "B" = true := by
    rw [Replayed.evolves_of_category hbase]
    rfl
  have hall := hc.graph.labels_eq hc.schema ((hc.graph.isName_iff hc.schema).mp hname) hevolves
  have hlast : 1 ∈ labels := by
    rw [Except.ok.inj (hlabels.symm.trans hall), hcurrent]
    exact List.mem_append_right _ List.mem_cons_self
  have halong := hchains (List.ne_nil_of_mem hlast)
  have hchain : c.graph.upgradeChain "B" 0 1 = .ok [⟨"B", some 1⟩] := by
    refine (halong.exact 0 1 Nat.zero_lt_one (Nat.le_of_eq hcurrent.symm) _).mpr ⟨hlast, ?_⟩
    rw [identitiesWithin_eq_cons halong.ascending hlast Nat.zero_lt_one (fun _ _ hlt => hlt)
      (Nat.le_refl 1), identitiesWithin_of_le (Nat.le_refl 1)]
  refine ⟨c, labels, h, hname, hlabels, List.ne_nil_of_mem hlast, hchain, ?_⟩
  exact (hloops "B" 0 1 (by decide) (by decide) _).mpr hchain.symm

end SchemaEvolution

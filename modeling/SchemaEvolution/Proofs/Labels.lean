import SchemaEvolution.Proofs.TypeGraph

/-!
# Labels

A node is labelled with the last version that it is in force for. So the label of a name at a
version is the first version from there on behind which the name changes, or the current version
when it does not change any more. All labels of a name are the versions behind which it changes, and
the current version after them.

## Main definitions

* `Replayed.LabelAt`: the label of a name at a version
* `Graph.changes`: a name is in the changed set of a version
* `Graph.starts`: the versions behind which a name changes

## Main results

* `Built.version_eq_of_labelAt`: the node in force carries the label of its name
* `Built.identity_inj`, `Built.nodup_identities`: no two nodes have the same identity
* `Built.labels_eq`, `Built.isChain_labels`: the labels of a name, and how each follows from the
  one before
* `Built.upgradeChain_of_labelAt`: an upgrade chain goes from label to label
-/

namespace SchemaEvolution

/-! ## The label of a name -/

/-- **The label of a name at a version**: the first version from there on behind which the name is
affected, or the last version of all. -/
structure Replayed.LabelAt (replayed : Replayed) (version : Nat) (name : String) (label : Nat) :
    Prop where
  le : version ≤ label
  lt_size : label < replayed.chain.size
  ends : label + 1 = replayed.chain.size ∨ replayed.Affected label name
  stays : ∀ {v}, version ≤ v → v < label → ¬replayed.Affected v name

namespace Replayed.LabelAt

variable {replayed : Replayed} {v label label' : Nat} {name other : String}

/-- A name has one label at a version. -/
theorem unique (h : replayed.LabelAt v name label) (h' : replayed.LabelAt v name label') :
    label = label' := by
  -- the smaller of two labels would end where the name still stays
  have hle : ∀ {a b}, replayed.LabelAt v name a → replayed.LabelAt v name b → ¬a < b := by
    intro a b ha hb hlt
    rcases ha.ends with hlast | haffected
    · have hb := hb.lt_size
      omega
    · exact hb.stays ha.le hlt haffected
  have hlt := hle h h'
  have hgt := hle h' h
  omega

theorem of_affected (hv : v < replayed.chain.size) (h : replayed.Affected v name) :
    replayed.LabelAt v name v :=
  ⟨Nat.le_refl v, hv, .inr h, fun hle hlt => absurd hle (Nat.not_le.mpr hlt)⟩

/-- A label is its own label. -/
theorem own (h : replayed.LabelAt v name label) : replayed.LabelAt label name label :=
  ⟨Nat.le_refl label, h.lt_size, h.ends, fun hle hlt => absurd hle (Nat.not_le.mpr hlt)⟩

/-- A name that is not affected behind a version has the label of the next version. -/
theorem earlier (h : replayed.LabelAt (v + 1) name label) (hnot : ¬replayed.Affected v name) :
    replayed.LabelAt v name label where
  le := Nat.le_of_succ_le h.le
  lt_size := h.lt_size
  ends := h.ends
  stays {w} hle hlt := by
    rcases Nat.eq_or_lt_of_le hle with rfl | hlater
    · exact hnot
    · exact h.stays hlater hlt

/-- Names that are affected alike have the same labels. -/
theorem congr (h : replayed.LabelAt v name label)
    (hsame : ∀ w, replayed.Affected w name ↔ replayed.Affected w other) :
    replayed.LabelAt v other label where
  le := h.le
  lt_size := h.lt_size
  ends := h.ends.imp_right (hsame label).mp
  stays hle hlt haffected := h.stays hle hlt ((hsame _).mpr haffected)

end Replayed.LabelAt

/-- **Every name has a label** at every version. -/
theorem Replayed.exists_labelAt {replayed : Replayed} {v : Nat} (hv : v < replayed.chain.size)
    (name : String) : ∃ label, replayed.LabelAt v name label := by
  -- from the last version backwards: a name that is not affected takes over the next label
  obtain ⟨rest, hrest⟩ : ∃ rest, v + rest + 1 = replayed.chain.size :=
    ⟨replayed.chain.size - v - 1, by omega⟩
  induction rest generalizing v with
  | zero =>
    have hlast : v + 1 = replayed.chain.size := hrest
    exact ⟨v, Nat.le_refl v, hv, .inl hlast, fun hle hlt => absurd hle (Nat.not_le.mpr hlt)⟩
  | succ rest ih =>
    by_cases haffected : replayed.Affected v name
    · exact ⟨v, .of_affected hv haffected⟩
    · obtain ⟨label, hlabel⟩ := ih (v := v + 1) (by omega) (by omega)
      exact ⟨label, hlabel.earlier haffected⟩

/-! ## Nodes and labels -/

namespace Built

variable {replayed : Replayed} {graph : Graph} {v label : Nat} {name : String} {node : Node}
  (hg : Built replayed 0 graph.sketch)

include hg

/-- A name has the same node at all versions up to its label. -/
theorem node?_of_labelAt (hname : name ∈ replayed.blueprint.names)
    (h : replayed.LabelAt v name label) :
    graph.index.node? name v = graph.index.node? name label := by
  have hshared : ∀ w, v ≤ w → w ≤ label →
      graph.index.node? name v = graph.index.node? name w := by
    intro w hle
    induction w, hle using Nat.le_induction with
    | base => exact fun _ => rfl
    | succ w hle ih =>
      intro hlt
      have hsize : w + 1 < replayed.chain.size := Nat.lt_of_le_of_lt hlt h.lt_size
      have hsame := (hg.shared (Nat.zero_le w) hsize hname).mpr (h.stays hle hlt)
      exact (ih (Nat.le_of_succ_le hlt)).trans hsame
  exact hshared label h.le (Nat.le_refl label)

/-- **The node in force carries the label of its name**, if the name evolves. -/
theorem version_eq_of_labelAt (hnode : graph.nodeAt name v = .ok node)
    (h : replayed.LabelAt v name label) :
    node.version = if replayed.blueprint.evolves name then some label else none := by
  obtain ⟨id, hid, hget⟩ := Graph.nodeAt_eq_ok_iff.mp hnode
  have hname := (hg.mem_of_node? hid).2
  rw [hg.node?_of_labelAt hname h] at hid
  have hown : graph.nodeAt name label = .ok node := Graph.nodeAt_eq_ok_iff.mpr ⟨id, hid, hget⟩
  obtain ⟨-, -, hrep⟩ := hg.represents_of_nodeAt hown
  obtain ⟨label', hle, hlt, haffected, hversion⟩ := hrep.label
  have hsame : label' = label := by
    rcases h.ends with hlast | hends
    · omega
    · exact haffected hends
  rw [hversion, hsame]

/-- The node of a name that evolves, with its label. -/
theorem exists_nodeAt_labelAt (hv : v < replayed.chain.size)
    (hname : name ∈ replayed.blueprint.names) (hevolves : replayed.blueprint.evolves name = true) :
    ∃ node label, graph.nodeAt name v = .ok node ∧ replayed.LabelAt v name label ∧
      node.identity = ⟨name, some label⟩ := by
  obtain ⟨node, hnode, -, -, hrep⟩ := hg.exists_nodeAt hv hname
  obtain ⟨label, hlabel⟩ := Replayed.exists_labelAt hv name
  refine ⟨node, label, hnode, hlabel, ?_⟩
  rw [Node.identity, hrep.named, hg.version_eq_of_labelAt hnode hlabel, if_pos hevolves]

/-- **No two nodes have the same identity.** -/
theorem identity_inj (hr : replayed.Sound) {id id' : NodeId} {other : Node}
    (h : graph.nodes[id]? = some node) (h' : graph.nodes[id']? = some other)
    (hsame : node.identity = other.identity) : id = id' := by
  obtain ⟨-, hname, version, -, hv, hbound, hversion⟩ := hg.owner h
  obtain ⟨-, -, version', -, hv', hbound', hversion'⟩ := hg.owner h'
  obtain ⟨hnamed, hlabels⟩ := Identity.mk.inj hsame
  rw [← hnamed] at hbound' hversion'
  rw [hversion, hversion'] at hlabels
  cases hevolves : replayed.blueprint.evolves node.name with
  | true =>
    rw [hevolves] at hlabels
    obtain rfl := Option.some.inj hlabels
    exact Option.some.inj (hbound.symm.trans hbound')
  | false =>
    have hlast : ∀ {w}, w < replayed.chain.size →
        replayed.LabelAt w node.name (replayed.chain.size - 1) := fun hw =>
      ⟨by omega, by omega, .inl (by omega),
        fun _ _ => hr.not_affected_of_not_evolves hevolves⟩
    have hone := hg.node?_of_labelAt hname (hlast hv)
    have hone' := hg.node?_of_labelAt hname (hlast hv')
    exact Option.some.inj (hbound.symm.trans (hone.trans (hone'.symm.trans hbound')))

/-- The identities of the nodes do not repeat. -/
theorem nodup_identities (hr : replayed.Sound) :
    (graph.nodes.toList.map Node.identity).Nodup := by
  refine List.pairwise_map.mpr (List.pairwise_iff_getElem.mpr ?_)
  intro i j hi hj hlt hsame
  have hget : graph.nodes[i]? = some graph.nodes.toList[i] := by
    rw [← Array.getElem?_toList, List.getElem?_eq_getElem hi]
  have hget' : graph.nodes[j]? = some graph.nodes.toList[j] := by
    rw [← Array.getElem?_toList, List.getElem?_eq_getElem hj]
  exact absurd (hg.identity_inj hr hget hget' hsame) (Nat.ne_of_lt hlt)

end Built

/-! ## All labels of a name -/

/-- A name is in the changed set of a version. -/
def Graph.changes (graph : Graph) (version : Nat) (name : String) : Bool :=
  ((graph.changedAt? version).map fun changed => decide (name ∈ changed)).getD false

/-- **The versions behind which a name changes**, ascending. -/
def Graph.starts (graph : Graph) (name : String) : List Nat :=
  (List.range graph.current).filter (graph.changes · name)

/-- What an upgrade chain does next: it goes on from the label of the node behind its cursor, or
fails if that lies behind its end. -/
theorem Graph.upgradeChain_of_version {graph : Graph} {name : String} {node : Node}
    {cursor last label : Nat} (h : cursor < last)
    (hnode : graph.nodeAt name (cursor + 1) = .ok node) (hversion : node.version = some label)
    (hahead : cursor < label) : graph.upgradeChain name cursor last =
      if last < label then
        .error (.internal s!"upgrade chain of '{name}' skips past version {last}")
      else (graph.upgradeChain name label last).map (node.identity :: ·) := by
  rw [upgradeChain, dif_pos h, hnode]
  dsimp only
  rw [hversion]
  dsimp only
  rw [dif_pos hahead]

namespace Built

variable {replayed : Replayed} {graph : Graph} {v label : Nat} {name : String}
  (hg : Built replayed 0 graph.sketch)

include hg

theorem changes_iff (hv : v < replayed.chain.size) :
    graph.changes v name = true ↔ replayed.Affected v name := by
  have hcount : graph.changed.length + 0 = replayed.chain.size := hg.count
  have hget : graph.changedAt? v = some graph.changed[v] := List.getElem?_eq_getElem (by omega)
  have hmem := hg.changed hget name
  rw [Nat.zero_add] at hmem
  rw [Graph.changes, hget, Option.map_some, Option.getD_some, decide_eq_true_iff, hmem]

theorem mem_starts_iff : v ∈ graph.starts name ↔
    v + 1 < replayed.chain.size ∧ replayed.Affected v name := by
  rw [Graph.starts, List.mem_filter, List.mem_range, hg.current_eq]
  constructor
  · rintro ⟨hv, hchanges⟩
    exact ⟨by omega, (hg.changes_iff (by omega)).mp hchanges⟩
  · rintro ⟨hv, haffected⟩
    exact ⟨by omega, (hg.changes_iff (by omega)).mpr haffected⟩

/-- The versions behind which a name changes, as far as they lie before the next version. -/
theorem filter_changes_succ (hv : v < replayed.chain.size) [Decidable (replayed.Affected v name)] :
    (List.range (v + 1)).filter (graph.changes · name) =
      (List.range v).filter (graph.changes · name) ++
        if replayed.Affected v name then [v] else [] := by
  rw [List.range_succ, List.filter_append, List.append_cancel_left_eq]
  have hchanges : graph.changes v name = true ↔ replayed.Affected v name := hg.changes_iff hv
  by_cases haffected : replayed.Affected v name
  · simp [haffected, hchanges.mpr haffected]
  · have hnot : graph.changes v name = false := Bool.eq_false_iff.mpr (mt hchanges.mp haffected)
    simp [haffected, hnot]

/-- Labels are collected one version at a time: after each, the list ends with the label there. -/
theorem labelsAmong_range' (hname : name ∈ replayed.blueprint.names)
    (hevolves : replayed.blueprint.evolves name = true) {rest : Nat}
    (hsize : v + rest + 1 = replayed.chain.size) (h : replayed.LabelAt v name label) :
    graph.labelsAmong name (List.range' (v + 1) rest)
        ((List.range v).filter (graph.changes · name) ++ [label]) =
      .ok ((List.range (v + rest)).filter (graph.changes · name) ++ [v + rest]) := by
  classical
  induction rest generalizing v label with
  | zero =>
    have hle := h.le
    have hlt := h.lt_size
    obtain rfl : label = v := by omega
    rfl
  | succ rest ih =>
    obtain ⟨node, next, hnode, hnext, hidentity⟩ :=
      hg.exists_nodeAt_labelAt (v := v + 1) (by omega) hname hevolves
    have hversion : node.version = some next := congrArg Identity.version hidentity
    rw [List.range'_succ, Graph.labelsAmong, hnode, ok_bind, hversion]
    dsimp only
    rw [List.getLast?_concat]
    have hlater := ih (v := v + 1) (by omega) hnext
    rw [hg.filter_changes_succ (by omega)] at hlater
    have hplace : v + (rest + 1) = v + 1 + rest := by omega
    by_cases haffected : replayed.Affected v name
    · obtain rfl := h.unique (.of_affected (by omega) haffected)
      have hnew : ¬some label = some next := by
        have hle := hnext.le
        rw [Option.some_inj]
        omega
      rw [if_neg hnew, hplace]
      rw [if_pos haffected] at hlater
      exact hlater
    · obtain rfl := h.unique (hnext.earlier haffected)
      rw [if_pos rfl, hplace]
      rw [if_neg haffected, List.append_nil] at hlater
      exact hlater

/-- **The labels of a name that evolves** are the versions behind which it changes, and the current
version. -/
theorem labels_eq (hr : replayed.Sound) (hname : name ∈ replayed.blueprint.names)
    (hevolves : replayed.blueprint.evolves name = true) :
    graph.labels name = .ok (graph.starts name ++ [graph.current]) := by
  have hsize : 0 < replayed.chain.size := hr.chain.nonempty
  obtain ⟨node, label, hnode, hlabel, hidentity⟩ := hg.exists_nodeAt_labelAt hsize hname hevolves
  have hversion : node.version = some label := congrArg Identity.version hidentity
  have hcurrent := hg.current_eq
  have hcount : graph.versionCount = graph.current + 1 := by
    rw [hg.versionCount_eq]
    omega
  have hlast : 0 + graph.current + 1 = replayed.chain.size := by omega
  have hrest := hg.labelsAmong_range' hname hevolves hlast hlabel
  simp only [Nat.zero_add] at hrest
  rw [Graph.labels, hcount, List.range_eq_range', List.range'_succ, Graph.labelsAmong, hnode,
    ok_bind, hversion, Nat.zero_add]
  exact hrest

/-- **Each label follows from the one before**: it is the label behind it. -/
theorem isChain_labels (hr : replayed.Sound) :
    (graph.starts name ++ [graph.current]).IsChain
      fun label next => replayed.LabelAt (label + 1) name next := by
  classical
  have hsize : 0 < replayed.chain.size := hr.chain.nonempty
  -- up to each version, followed by the label there, which is the current one in the end
  have hchain : ∀ v < replayed.chain.size, ∀ label, replayed.LabelAt v name label →
      ((List.range v).filter (graph.changes · name) ++ [label]).IsChain
        fun label next => replayed.LabelAt (label + 1) name next := by
    intro v
    induction v with
    | zero => exact fun _ label _ => .singleton label
    | succ v ih =>
      intro hv label hlabel
      rw [hg.filter_changes_succ (by omega)]
      by_cases haffected : replayed.Affected v name
      · have hown := ih (by omega) v (.of_affected (by omega) haffected)
        rw [if_pos haffected, List.append_assoc, List.singleton_append,
          List.isChain_append_cons_cons]
        exact ⟨hown, hlabel, .singleton label⟩
      · rw [if_neg haffected, List.append_nil]
        exact ih (by omega) label (hlabel.earlier haffected)
  have hcurrent := hg.current_eq
  exact hchain graph.current (by omega) graph.current
    ⟨Nat.le_refl _, by omega, .inl (by omega), fun hle hlt => absurd hle (Nat.not_le.mpr hlt)⟩

omit hg in
theorem pairwise_labels : (graph.starts name ++ [graph.current]).Pairwise (· < ·) := by
  rw [List.pairwise_append]
  refine ⟨List.pairwise_lt_range.filter _, List.pairwise_singleton _ _, ?_⟩
  intro v hv current hcurrent
  rw [List.mem_singleton] at hcurrent
  have hlt : v < graph.current := List.mem_range.mp (List.mem_filter.mp hv).1
  rwa [hcurrent]

/-! ## Upgrade chains -/

omit hg in
theorem upgradeChain_of_le {cursor last : Nat} (h : last ≤ cursor) :
    graph.upgradeChain name cursor last = .ok [] := by
  rw [Graph.upgradeChain, dif_neg (Nat.not_lt.mpr h)]

/-- **An upgrade chain goes from label to label**, as long as its end is not passed. -/
theorem upgradeChain_of_labelAt (hname : name ∈ replayed.blueprint.names)
    (hevolves : replayed.blueprint.evolves name = true) {cursor last : Nat}
    (h : replayed.LabelAt (cursor + 1) name label) (hle : label ≤ last) :
    graph.upgradeChain name cursor last =
      (graph.upgradeChain name label last).map (⟨name, some label⟩ :: ·) := by
  have hsize : cursor + 1 < replayed.chain.size := Nat.lt_of_le_of_lt h.le h.lt_size
  have hahead : cursor < label := h.le
  obtain ⟨node, label', hnode, hlabel, hidentity⟩ :=
    hg.exists_nodeAt_labelAt hsize hname hevolves
  obtain rfl := h.unique hlabel
  have hversion : node.version = some label := congrArg Identity.version hidentity
  rw [Graph.upgradeChain_of_version (by omega) hnode hversion hahead, if_neg (Nat.not_lt.mpr hle),
    hidentity]

end Built

end SchemaEvolution

import SchemaEvolution.Proofs.Commands
import SchemaEvolution.Proofs.Identities
import SchemaEvolution.Proofs.JsonMembers
import SchemaEvolution.Proofs.Sequencing
import SchemaEvolution.Proofs.UpgradePaths

/-!
# The history of a type parts the chain

The history goes through the versions in order and only ever compares the node of a version with
that of the last span. Still no node comes back later, since a node that gave way to another one has
its label behind it. So each span has a node of its own and is labelled with its last version, and
the paths of the type lead from each span to the next one. What is written of a history, as a
document or as lines of text, has each span and each upgrade once and in order.

## Main definitions

* `NodeSpan.Covers`: a span stands for versions in a row
* `Compilation.extendSpans`: one version is added to the spans of a type
* `TypeHistory.ListedIn`, `TypeHistory.WrittenIn`: a document, or a text, reports a history

## Main results

* `NodeSpan.exists_covers_extend`, `NodeSpan.map_node_extend`: what one more version does
* `Compilation.spans_induction`: what one more version keeps, the whole run keeps
* `Compilation.exists_groups`: the spans stand for groups of versions that make up the chain
* `Compilation.map_version_spans`: the spans of a name that evolves have its labels
* `Compilation.version_eq_last`: a span is labelled with its last version
* `Compilation.exists_span_of_leaf`: a name that does not evolve has a single span
* `Compilation.reportedBy_carryOut`: the command writes the history
* `Compilation.typeHistory_partition`: the history of a type is a faithful partition
-/

namespace SchemaEvolution

/-! ## One more version -/

namespace NodeSpan

variable {graph : Graph} {type : String} {node : Node} {version : Version} {span : NodeSpan}
  {spans : List NodeSpan} {group : List Version} {groups : List (List Version)}

/-- **A span stands for versions in a row**: it has their names, and its node is in force at each
of them. -/
structure Covers (graph : Graph) (type : String) (span : NodeSpan) (group : List Version) :
    Prop where
  versions : span.versions = group.map Version.name
  inForce : ∀ version ∈ group, graph.nodeAt type version.index = .ok span.node

theorem Covers.ne_nil (h : Covers graph type span group) : group ≠ [] := by
  rintro rfl
  exact List.cons_ne_nil _ _ h.versions

theorem Covers.exists_nodeAt (h : Covers graph type span group) :
    ∃ v, graph.nodeAt type v = .ok span.node := by
  obtain ⟨version, hversion⟩ := List.exists_mem_of_ne_nil group h.ne_nil
  exact ⟨version.index, h.inForce version hversion⟩

theorem Covers.single (h : graph.nodeAt type version.index = .ok node) :
    Covers graph type ⟨node, version.name, []⟩ [version] :=
  ⟨rfl, fun _ hmem => List.mem_singleton.mp hmem ▸ h⟩

/-- A span takes one more version, at which its node is still in force. -/
theorem Covers.concat (h : Covers graph type span group)
    (hversion : graph.nodeAt type version.index = .ok span.node) :
    Covers graph type { span with others := span.others ++ [version.name] }
      (group ++ [version]) where
  versions := by
    rw [List.map_append, ← h.versions]
    rfl
  inForce other hother := by
    rcases List.mem_append.mp hother with hold | hnew
    · exact h.inForce other hold
    · exact List.mem_singleton.mp hnew ▸ hversion

/-- **One more version comes behind those that the spans stand for.** -/
theorem exists_covers_extend (hnode : graph.nodeAt type version.index = .ok node)
    (hid : ∀ span ∈ spans, span.node.id = node.id → span.node = node)
    (h : List.Forall₂ (Covers graph type) spans groups) :
    ∃ groups', groups'.flatten = groups.flatten ++ [version] ∧
      List.Forall₂ (Covers graph type) (extend node version.name spans) groups' := by
  fun_induction extend node version.name spans generalizing groups with
  | case1 =>
    cases h
    exact ⟨[[version]], rfl, .cons (.single hnode) .nil⟩
  | case2 span hsame =>
    obtain ⟨group, rest, hgroup, hrest, rfl⟩ := List.forall₂_cons_left_iff.mp h
    cases hrest
    have hstill : graph.nodeAt type version.index = .ok span.node := by
      rw [hnode, hid span List.mem_cons_self hsame]
    exact ⟨[group ++ [version]], by simp, .cons (hgroup.concat hstill) .nil⟩
  | case3 span hother =>
    obtain ⟨group, rest, hgroup, hrest, rfl⟩ := List.forall₂_cons_left_iff.mp h
    cases hrest
    exact ⟨[group, [version]], by simp, .cons hgroup (.cons (.single hnode) .nil)⟩
  | case4 span rest hmore ih =>
    obtain ⟨group, later, hgroup, hlater, rfl⟩ := List.forall₂_cons_left_iff.mp h
    obtain ⟨groups', hflatten, hcovers⟩ :=
      ih (fun span hspan => hid span (List.mem_cons_of_mem _ hspan)) hlater
    exact ⟨group :: groups', by simp [hflatten], .cons hgroup hcovers⟩

/-- **The nodes of the spans**: one more version adds its node, unless that is the last one. -/
theorem map_node_extend (node : Node) (version : String) (spans : List NodeSpan) :
    (extend node version spans).map NodeSpan.node =
      if ((spans.map NodeSpan.node).getLast?).map Node.id = some node.id then
        spans.map NodeSpan.node
      else spans.map NodeSpan.node ++ [node] := by
  fun_induction extend node version spans with
  | case1 => rfl
  | case2 span hsame => simp [hsame]
  | case3 span hother => simp [hother]
  | case4 span rest hmore ih =>
    obtain ⟨next, later, rfl⟩ := List.exists_cons_of_ne_nil hmore
    rw [List.map_cons, ih]
    simp only [List.map_cons, List.getLast?_cons_cons]
    split <;> rfl

end NodeSpan

/-! ## The versions of the chain -/

namespace Chain

/-- The indexes of the versions ascend. -/
theorem Linked.pairwise_index {chain : Chain} (h : chain.Linked) :
    chain.versions.Pairwise fun version later => version.index < later.index := by
  refine List.pairwise_iff_getElem.mpr fun i j hi hj hlt => ?_
  rw [h.index (List.getElem?_eq_getElem hi), h.index (List.getElem?_eq_getElem hj)]
  exact hlt

theorem Linked.map_index {chain : Chain} (h : chain.Linked) :
    chain.versions.map Version.index = List.range chain.size := by
  refine List.ext_getElem (by simp [size]) fun i hi hi' => ?_
  rw [List.length_map] at hi
  rw [List.getElem_map, List.getElem_range]
  exact h.index (List.getElem?_eq_getElem hi)

/-- **No two versions have the same name.** -/
theorem nodup_names {definition : Definition} {chain : Chain}
    (h : ofDefinition definition = .ok chain) : (chain.versions.map Version.name).Nodup := by
  obtain ⟨order, horder, rfl⟩ := enumerates_of_ofDefinition h
  have hnames : (ofOrder definition.versions order).versions.map Version.name = order := by
    refine List.ext_getElem (by simp [ofOrder]) fun i hi hi' => ?_
    simp only [ofOrder, List.getElem_map, List.getElem_mapIdx, versionAt]
  rw [hnames]
  exact horder.nodup

end Chain

/-- Labels are collected one stretch of versions after the other. -/
theorem Graph.labelsAmong_append (graph : Graph) (name : String)
    (versions later labels : List Nat) :
    graph.labelsAmong name (versions ++ later) labels =
      graph.labelsAmong name versions labels >>= graph.labelsAmong name later := by
  induction versions generalizing labels with
  | nil => rfl
  | cons version rest ih =>
    rw [List.cons_append, labelsAmong, labelsAmong]
    cases graph.nodeAt name version with
    | error e => rfl
    | ok node =>
      rw [ok_bind, ok_bind]
      split
      · exact ih labels
      · split
        · exact ih labels
        · exact ih _

/-- Neighbours in a list, with a function applied to both. -/
theorem map_zip_tail {α β : Type} (f : α → β) (xs : List α) :
    (xs.zip xs.tail).map (fun ends => (f ends.1, f ends.2)) = (xs.map f).zip (xs.map f).tail := by
  rw [← List.map_tail, List.zip_map]
  rfl

/-! ## The whole run -/

namespace Compilation

variable {c : Compilation} {type : String} {spans : List NodeSpan}

/-- One version is added to the spans of a type. -/
def extendSpans (c : Compilation) (type : String) (spans : List NodeSpan) (version : Version) :
    Except SchemaError (List NodeSpan) := do
  let node ← c.graph.nodeAt type version.index
  return NodeSpan.extend node version.name spans

/-- What a history consists of. -/
theorem typeHistory_eq_ok {spelling : String} {history : TypeHistory}
    (h : c.typeHistory spelling = .ok history) : ∃ ref, TypeRef.parse spelling = .ok ref ∧
      ∃ spans, c.chain.versions.foldlM (c.extendSpans ref.canonical) [] = .ok spans ∧
        history = ⟨ref.canonical, spans, c.plan.pathsFor ref.canonical⟩ := by
  obtain ⟨ref, href, h⟩ := bind_eq_ok.mp h
  obtain ⟨spans, hspans, h⟩ := bind_eq_ok.mp h
  exact ⟨ref, href, spans, hspans, (Except.ok.inj h).symm⟩

/-- **What one more version keeps, the whole run keeps.** -/
theorem spans_induction {p : List NodeSpan → List Version → Prop} (hstart : p [] [])
    (hstep : ∀ {spans done version node}, p spans done →
      c.graph.nodeAt type version.index = .ok node →
        p (NodeSpan.extend node version.name spans) (done ++ [version]))
    (h : c.chain.versions.foldlM (c.extendSpans type) [] = .ok spans) :
    p spans c.chain.versions := by
  -- on the versions that are left, for whatever spans there are of those before them
  have hrun : ∀ (left done : List Version) (before : List NodeSpan), p before done →
      left.foldlM (c.extendSpans type) before = .ok spans → p spans (done ++ left) := by
    intro left
    induction left with
    | nil =>
      intro done before hbefore h
      obtain rfl := Except.ok.inj h
      rwa [List.append_nil]
    | cons version rest ih =>
      intro done before hbefore h
      rw [List.foldlM_cons] at h
      obtain ⟨middle, hmiddle, h⟩ := bind_eq_ok.mp h
      obtain ⟨node, hnode, hextend⟩ := bind_eq_ok.mp hmiddle
      obtain rfl := Except.ok.inj hextend
      rw [List.append_cons]
      exact ih _ _ (hstep hbefore hnode) h
  exact hrun _ [] [] hstart h

section Sound

variable (hc : c.Sound)

include hc

/-- Nodes in force with one id are the same. -/
theorem node_eq_of_id {node other : Node} {v w : Nat} (h : c.graph.nodeAt type v = .ok node)
    (h' : c.graph.nodeAt type w = .ok other) (hid : node.id = other.id) : node = other := by
  obtain ⟨-, hget, -⟩ := hc.graph.represents_of_nodeAt h
  obtain ⟨-, hget', -⟩ := hc.graph.represents_of_nodeAt h'
  rw [hid] at hget
  exact Option.some.inj (hget.symm.trans hget')

/-- **The spans stand for groups of versions** that make up the chain. -/
theorem exists_groups (h : c.chain.versions.foldlM (c.extendSpans type) [] = .ok spans) :
    ∃ groups, groups.flatten = c.chain.versions ∧
      List.Forall₂ (NodeSpan.Covers c.graph type) spans groups := by
  refine spans_induction (p := fun spans done => ∃ groups, groups.flatten = done ∧
    List.Forall₂ (NodeSpan.Covers c.graph type) spans groups) ⟨[], rfl, .nil⟩ ?_ h
  rintro spans done version node ⟨groups, rfl, hcovers⟩ hnode
  refine NodeSpan.exists_covers_extend hnode (fun span hspan hid => ?_) hcovers
  obtain ⟨group, -, hgroup⟩ := exists_right_of_forall₂ hcovers hspan
  obtain ⟨v, hv⟩ := hgroup.exists_nodeAt
  exact node_eq_of_id hc hv hnode hid

/-- Nodes in force for a name are told apart by their versions. -/
theorem id_eq_iff_version_eq {node other : Node} {v w : Nat}
    (h : c.graph.nodeAt type v = .ok node) (h' : c.graph.nodeAt type w = .ok other) :
    node.id = other.id ↔ node.version = other.version := by
  refine ⟨fun hid => congrArg Node.version (node_eq_of_id hc h h' hid), fun hversion => ?_⟩
  obtain ⟨-, hget, hrep⟩ := hc.graph.represents_of_nodeAt h
  obtain ⟨-, hget', hrep'⟩ := hc.graph.represents_of_nodeAt h'
  refine hc.graph.identity_inj hc.schema hget hget' ?_
  rw [Node.identity, Node.identity, hrep.named, hrep'.named, hversion]

/-- The node in force for a name that evolves has a label. -/
theorem exists_label (hevolves : c.schema.blueprint.evolves type = true) {node : Node} {v : Nat}
    (h : c.graph.nodeAt type v = .ok node) :
    ∃ label, c.schema.LabelAt v type label ∧ node.version = some label := by
  obtain ⟨hid, -⟩ := hc.graph.represents_of_nodeAt h
  obtain ⟨label, hlabel⟩ := Replayed.exists_labelAt (hc.graph.mem_of_node? hid).1 type
  refine ⟨label, hlabel, ?_⟩
  rw [hc.graph.version_eq_of_labelAt h hlabel, if_pos hevolves]

omit hc in
/-- **The spans have the labels of the versions so far**, in order. -/
structure SpansLabelled (c : Compilation) (type : String) (spans : List NodeSpan)
    (done : List Version) : Prop where
  nodes : ∀ node ∈ spans.map NodeSpan.node, ∃ v, c.graph.nodeAt type v = .ok node
  labels : ∃ labels, c.graph.labelsAmong type (done.map Version.index) [] = .ok labels ∧
    (spans.map NodeSpan.node).map Node.version = labels.map some

/-- One more version adds a node exactly if it adds a label. -/
theorem SpansLabelled.extend (hevolves : c.schema.blueprint.evolves type = true)
    {done : List Version} {version : Version} {node : Node} (h : c.SpansLabelled type spans done)
    (hnode : c.graph.nodeAt type version.index = .ok node) :
    c.SpansLabelled type (NodeSpan.extend node version.name spans) (done ++ [version]) := by
  obtain ⟨labels, hlabels, hversions⟩ := h.labels
  obtain ⟨label, -, hlabel⟩ := exists_label hc hevolves hnode
  have hlast : ((spans.map NodeSpan.node).getLast?).map Node.id = some node.id ↔
      labels.getLast? = some label := by
    have hmap : ((spans.map NodeSpan.node).getLast?).map Node.version =
        (labels.getLast?).map some := by
      rw [← List.getLast?_map, hversions, List.getLast?_map]
    cases hspan : (spans.map NodeSpan.node).getLast? with
    | none =>
      rw [hspan, Option.map_none, eq_comm, Option.map_eq_none_iff] at hmap
      simp [hmap]
    | some last =>
      obtain ⟨v, hv⟩ := h.nodes last (List.mem_of_getLast? hspan)
      rw [hspan, Option.map_some, eq_comm, Option.map_eq_some_iff] at hmap
      obtain ⟨label', hlabel', hversion⟩ := hmap
      rw [Option.map_some, Option.some_inj, id_eq_iff_version_eq hc hv hnode, ← hversion, hlabel,
        hlabel']
  refine ⟨fun other hother => ?_, ?_⟩
  · rw [NodeSpan.map_node_extend] at hother
    split at hother
    · exact h.nodes other hother
    · rcases List.mem_append.mp hother with hold | hnew
      · exact h.nodes other hold
      · exact ⟨version.index, List.mem_singleton.mp hnew ▸ hnode⟩
  · rw [NodeSpan.map_node_extend, List.map_append, Graph.labelsAmong_append, hlabels, ok_bind,
      List.map_singleton, Graph.labelsAmong, hnode, ok_bind, hlabel]
    dsimp only
    by_cases hsame : labels.getLast? = some label
    · rw [if_pos hsame, if_pos (hlast.mpr hsame)]
      exact ⟨labels, rfl, hversions⟩
    · rw [if_neg hsame, if_neg (mt hlast.mp hsame)]
      refine ⟨labels ++ [label], rfl, ?_⟩
      rw [List.map_append, List.map_append, hversions, List.map_singleton, hlabel,
        List.map_singleton]

/-- **The spans of a name that evolves have its labels**, in order. -/
theorem map_version_spans (hlinked : c.chain.Linked)
    (hevolves : c.schema.blueprint.evolves type = true)
    (h : c.chain.versions.foldlM (c.extendSpans type) [] = .ok spans) :
    ∃ labels, c.graph.labels type = .ok labels ∧
      spans.map (fun span => span.node.version) = labels.map some := by
  have hall : c.SpansLabelled type spans c.chain.versions :=
    spans_induction ⟨fun _ hnode => absurd hnode List.not_mem_nil, [], rfl, rfl⟩
      (fun hdone hnode => hdone.extend hc hevolves hnode) h
  obtain ⟨labels, hlabels, hversions⟩ := hall.labels
  rw [hlinked.map_index] at hlabels
  refine ⟨labels, ?_, ?_⟩
  · rw [Graph.labels, hc.graph.versionCount_eq]
    exact hlabels
  · rw [← hversions, List.map_map]
    rfl

omit hc in
/-- **A name with one node has one span.** -/
theorem map_node_spans_of_unique {leaf : Node}
    (hleaf : ∀ {v node}, c.graph.nodeAt type v = .ok node → node = leaf)
    (h : c.chain.versions.foldlM (c.extendSpans type) [] = .ok spans) :
    spans.map NodeSpan.node = if c.chain.versions = [] then [] else [leaf] := by
  refine spans_induction (p := fun spans done =>
    spans.map NodeSpan.node = if done = [] then [] else [leaf]) rfl ?_ h
  intro spans done version node hdone hnode
  obtain rfl := hleaf hnode
  rw [NodeSpan.map_node_extend, hdone, if_neg (List.append_ne_nil_of_right_ne_nil _ (by simp))]
  by_cases hfirst : done = []
  · simp [hfirst]
  · simp [hfirst]

/-- **A name that does not evolve has a single span**, without a label. -/
theorem exists_span_of_leaf (hname : type ∈ c.schema.blueprint.names)
    (hleaf : c.schema.blueprint.evolves type = false)
    (h : c.chain.versions.foldlM (c.extendSpans type) [] = .ok spans) :
    ∃ span, spans = [span] ∧ span.node.version = none := by
  obtain ⟨leaf, hversion, hall⟩ := hc.graph.nodeAt_leaf hc.schema hname hleaf
  have hunique : ∀ {v node}, c.graph.nodeAt type v = .ok node → node = leaf := by
    intro v node hnode
    obtain ⟨hid, -⟩ := hc.graph.represents_of_nodeAt hnode
    exact Except.ok.inj (hnode.symm.trans (hall v (hc.graph.mem_of_node? hid).1))
  have hsize : c.chain.versions ≠ [] := List.ne_nil_of_length_pos hc.schema.chain.nonempty
  have hnodes := map_node_spans_of_unique hunique h
  rw [if_neg hsize] at hnodes
  obtain ⟨span, rfl, rfl⟩ := List.map_eq_singleton_iff.mp hnodes
  exact ⟨span, rfl, hversion⟩

omit hc in
/-- No version of a group comes behind the last one. -/
theorem index_le_last {group : List Version} {version last : Version}
    (hsorted : group.Pairwise fun version later => version.index < later.index)
    (hlast : group.getLast? = some last) (h : version ∈ group) : version.index ≤ last.index := by
  obtain ⟨front, rfl⟩ := List.getLast?_eq_some_iff.mp hlast
  rcases List.mem_append.mp h with hfront | hback
  · exact Nat.le_of_lt ((List.pairwise_append.mp hsorted).2.2 version hfront last
      (List.mem_singleton.mpr rfl))
  · rw [List.mem_singleton.mp hback]

/-- **A span of a name that evolves is labelled with its last version.** -/
theorem version_eq_last (hlinked : c.chain.Linked)
    (hevolves : c.schema.blueprint.evolves type = true) {groups : List (List Version)}
    (hflatten : groups.flatten = c.chain.versions)
    (hcovers : List.Forall₂ (NodeSpan.Covers c.graph type) spans groups)
    (hdistinct : (spans.map fun span => span.node.id).Nodup) :
    List.Forall₂ (fun span group => span.node.version = (group.getLast?).map Version.index)
      spans groups := by
  rw [List.forall₂_iff_get]
  refine ⟨hcovers.length_eq, fun i hi hi' => ?_⟩
  rw [List.get_eq_getElem, List.get_eq_getElem]
  have hgroup : NodeSpan.Covers c.graph type spans[i] groups[i] := hcovers.get hi hi'
  obtain ⟨last, hlast⟩ : ∃ last, (groups[i]).getLast? = some last :=
    Option.ne_none_iff_exists'.mp (mt List.getLast?_eq_none_iff.mp hgroup.ne_nil)
  have hnode := hgroup.inForce last (List.mem_of_getLast? hlast)
  obtain ⟨label, hlabel, hversion⟩ := exists_label hc hevolves hnode
  rw [hversion, hlast, Option.map_some, Option.some_inj]
  -- the node is in force at its label too, so that version belongs to the same span
  obtain ⟨-, hget, hrep⟩ := hc.graph.represents_of_nodeAt hnode
  obtain ⟨-, hown⟩ := hc.graph.nodeAt_label hget hversion
  rw [hrep.named] at hown
  obtain ⟨target, htarget⟩ : ∃ target, c.chain.get? label = some target :=
    ⟨_, List.getElem?_eq_getElem hlabel.lt_size⟩
  have hindex : target.index = label := hlinked.index htarget
  obtain ⟨group, hmem, hin⟩ := List.mem_flatten.mp (hflatten ▸ List.mem_of_getElem? htarget)
  obtain ⟨j, hj, rfl⟩ := List.getElem_of_mem hmem
  have hj' : j < spans.length := hcovers.length_eq ▸ hj
  have hother : NodeSpan.Covers c.graph type spans[j] groups[j] := hcovers.get hj' hj
  have hsame : spans[j].node = spans[i].node :=
    Except.ok.inj ((hother.inForce target hin).symm.trans (hindex ▸ hown))
  obtain rfl : j = i := by
    refine (List.getElem?_inj (by simpa using hj') hdistinct).mp ?_
    rw [List.getElem?_map, List.getElem?_map, List.getElem?_eq_getElem hj',
      List.getElem?_eq_getElem hi, Option.map_some, Option.map_some, hsame]
  have hsorted := (List.pairwise_flatten.mp (hflatten ▸ hlinked.pairwise_index)).1 _ hmem
  have hle := index_le_last hsorted hlast hin
  have hle' := hlabel.le
  omega

/-! ## The history -/

/-- **No node comes back** after another one. -/
theorem nodup_ids_of_versions {groups : List (List Version)}
    (hcovers : List.Forall₂ (NodeSpan.Covers c.graph type) spans groups)
    (hversions : (spans.map fun span => span.node.version).Nodup) :
    (spans.map fun span => span.node.id).Nodup := by
  refine List.pairwise_map.mpr ((List.pairwise_map.mp hversions).imp_of_mem ?_)
  intro span later hspan hlater hne hid
  obtain ⟨group, -, hgroup⟩ := exists_right_of_forall₂ hcovers hspan
  obtain ⟨group', -, hgroup'⟩ := exists_right_of_forall₂ hcovers hlater
  obtain ⟨v, hv⟩ := hgroup.exists_nodeAt
  obtain ⟨w, hw⟩ := hgroup'.exists_nodeAt
  exact hne ((id_eq_iff_version_eq hc hv hw).mp hid)

/-- Labels ascend, so none of them is that of two spans. -/
theorem nodup_ids_of_labels {groups : List (List Version)} {labels : List Nat}
    (hlabels : c.graph.labels type = .ok labels)
    (hname : type ∈ c.schema.blueprint.names) (hevolves : c.schema.blueprint.evolves type = true)
    (hcovers : List.Forall₂ (NodeSpan.Covers c.graph type) spans groups)
    (hversions : spans.map (fun span => span.node.version) = labels.map some) :
    (spans.map fun span => span.node.id).Nodup := by
  have hlist := hc.graph.labels_eq hc.schema hname hevolves
  obtain rfl := Except.ok.inj (hlabels.symm.trans hlist)
  refine nodup_ids_of_versions hc hcovers ?_
  rw [hversions]
  exact (Built.pairwise_labels.imp Nat.ne_of_lt).map _ fun _ _ hne heq =>
    hne (Option.some.inj heq)

/-- Only base and super types have paths. -/
theorem pathsFor_eq_nil (htype : ¬c.schema.IsUpgradable type) : c.plan.pathsFor type = [] := by
  refine List.eq_nil_iff_forall_not_mem.mpr fun path hpath => htype ?_
  obtain ⟨hmem, rfl⟩ := UpgradePlan.mem_pathsFor_iff.mp hpath
  obtain ⟨label, next, hconnects⟩ := exists_connects hc hmem
  exact hconnects.type

theorem isUpgradable_iff_isEvolvingType :
    c.schema.IsUpgradable type ↔ c.IsEvolvingType type :=
  or_congr hc.schema.definition.base hc.schema.definition.super

/-- **The paths of a type lead from each span to the next one.** -/
theorem map_ends_upgrades (htype : c.schema.IsUpgradable type) {labels : List Nat}
    (hlabels : c.graph.labels type = .ok labels) {groups : List (List Version)}
    (hcovers : List.Forall₂ (NodeSpan.Covers c.graph type) spans groups)
    (hversions : spans.map (fun span => span.node.version) = labels.map some) :
    (c.plan.pathsFor type).map (fun path => (path.source, path.target)) =
      (spans.zip spans.tail).map fun ends => (ends.1.node.identity, ends.2.node.identity) := by
  have hidentities : spans.map (fun span => span.node.identity) =
      labels.map fun label => ⟨type, some label⟩ := by
    calc spans.map (fun span => span.node.identity)
        = spans.map fun span => ⟨type, span.node.version⟩ := by
          refine List.map_congr_left fun span hspan => ?_
          obtain ⟨group, -, hgroup⟩ := exists_right_of_forall₂ hcovers hspan
          obtain ⟨v, hv⟩ := hgroup.exists_nodeAt
          obtain ⟨-, -, hrep⟩ := hc.graph.represents_of_nodeAt hv
          rw [Node.identity, hrep.named]
      _ = (spans.map fun span => span.node.version).map (Identity.mk type) := by
          rw [List.map_map]
          rfl
      _ = labels.map fun label => ⟨type, some label⟩ := by
          rw [hversions, List.map_map]
          rfl
  rw [map_ends_pathsFor hc htype hlabels,
    map_zip_tail (fun label => (⟨type, some label⟩ : Identity)), ← hidentities]
  exact (map_zip_tail (fun span : NodeSpan => span.node.identity) spans).symm

end Sound

end Compilation

/-! ## What is written -/

/-- **An entry of a document lists a span**: its node, with its id, its name and its label, and the
names of its versions. -/
structure NodeSpan.ListedIn (span : NodeSpan) (entry : Json) : Prop where
  names : entry.members.map Prod.fst = ["node", "versions"]
  node : entry.member "node" = span.node.json
  id : (entry.member "node").member "id" = .number span.node.id
  name : (entry.member "node").member "name" = .text span.node.name
  label : (entry.member "node").member "version" = .ofNumber? span.node.version
  versions : entry.member "versions" = .array (span.versions.map .text)

/-- **A line of text shows a span**: the identity of its node, its first version, its last one if
that is another, and the shape of the node. -/
def NodeSpan.ShownIn (graph : Graph) (span : NodeSpan) (line : String) : Prop :=
  ∃ first last, span.versions.head? = some first ∧ span.versions.getLast? = some last ∧
    line = "  " ++ padRight 20 span.node.identity.text ++ " " ++
      padRight 24 (if span.versions.length = 1 then first else first ++ " .. " ++ last) ++ " " ++
      graph.shape span.node ++ "\n"

namespace TypeHistory

variable (graph : Graph) (history : TypeHistory)

/-- **A document lists a history**: its type, an entry for each of its spans, its upgrades with
their ends, and nothing else. -/
structure ListedIn (document : Json) : Prop where
  names : document.members.map Prod.fst = ["nodes", "type", "upgrades"]
  type : document.member "type" = .text history.type
  spans : List.Forall₂ (fun entry span => span.ListedIn entry)
    (document.member "nodes").items history.spans
  upgrades : document.member "upgrades" = .array (history.upgrades.map UpgradePath.json)
  ends : (document.member "upgrades").items.map
      (fun entry => (entry.member "from", entry.member "to")) =
    history.upgrades.map fun path => (.text path.source.text, .text path.target.text)

/-- **A text shows a history**: a title with the type and the kind of its nodes, a line for each
span, and one for each upgrade with its two ends. -/
def WrittenIn (text : String) : Prop :=
  ∃ (span : NodeSpan) (lines upgradeLines : List String), history.spans.head? = some span ∧
    text = String.join ((history.type ++ " (" ++ span.node.kind.word ++ ")\n") ::
      (lines ++ upgradeLines)) ∧
    List.Forall₂ (fun line span => span.ShownIn graph line) lines history.spans ∧
    List.Forall₂ (fun line path => line = "  upgrade " ++ path.source.text ++ " -> " ++
      path.target.text ++ ": " ++ path.body.steps ++ "\n") upgradeLines history.upgrades

/-- **What is written reports a history** in the way that is asked for. Text may be kept quiet. -/
def ReportedBy (invocation : Invocation) (written : String) : Prop :=
  match invocation.output with
  | .json => ∃ document, written = document.pretty ++ "\n" ∧ history.ListedIn document
  | .text => if invocation.quiet then written = "" else history.WrittenIn graph written

theorem listedIn_spanJson (span : NodeSpan) : span.ListedIn (spanJson span) where
  names := rfl
  node := rfl
  id := span.node.member_id
  name := span.node.member_name
  label := span.node.member_version
  versions := rfl

theorem listedIn_json : history.ListedIn history.json where
  names := rfl
  type := rfl
  spans := List.forall₂_map_left_iff.mpr
    (List.forall₂_same.mpr fun span _ => listedIn_spanJson span)
  upgrades := rfl
  ends := by
    refine (List.map_map).trans (List.map_congr_left fun path _ => ?_)
    exact Prod.ext path.member_from path.member_to

theorem shownIn_spanLine (span : NodeSpan) : span.ShownIn graph (spanLine graph span) := by
  obtain ⟨node, first, others⟩ := span
  rcases List.eq_nil_or_concat others with rfl | ⟨front, last, rfl⟩
  · exact ⟨first, first, rfl, rfl, rfl⟩
  · refine ⟨first, last, rfl, List.getLast?_eq_some_iff.mpr ⟨first :: front, ?_⟩, ?_⟩
    · simp [NodeSpan.versions]
    · simp [spanLine, NodeSpan.covered, NodeSpan.versions]

theorem writtenIn_text (h : history.spans ≠ []) :
    history.WrittenIn graph (history.text graph) := by
  obtain ⟨span, rest, hspans⟩ := List.exists_cons_of_ne_nil h
  refine ⟨span, history.spans.map (spanLine graph), history.upgrades.map upgradeLine,
    hspans ▸ rfl, ?_,
    List.forall₂_map_left_iff.mpr (List.forall₂_same.mpr fun span _ => shownIn_spanLine graph span),
    List.forall₂_map_left_iff.mpr (List.forall₂_same.mpr fun _ _ => rfl)⟩
  have htitle : history.text graph = history.type ++ " (" ++ span.node.kind.word ++ ")\n" ++
      String.join (history.spans.map (spanLine graph)) ++
      String.join (history.upgrades.map upgradeLine) := by
    unfold text
    rw [hspans]
  rw [htitle, String.join_cons, String.join_append, String.append_assoc]

/-- **What is written of a history** reports it. -/
theorem reportedBy_shown (invocation : Invocation) (h : history.spans ≠ []) :
    history.ReportedBy graph invocation
      (invocation.shown (history.text graph) history.json).out := by
  unfold ReportedBy Invocation.shown
  cases invocation.output with
  | json => exact ⟨_, rfl, history.listedIn_json⟩
  | text =>
    cases invocation.quiet with
    | true => rfl
    | false => exact writtenIn_text graph history h

end TypeHistory

namespace Compilation

/-- **On a file that holds the schema** the command writes the history. -/
theorem reportedBy_carryOut {c : Compilation} {spelling : String} {history : TypeHistory}
    (hhistory : c.typeHistory spelling = .ok history) (hspans : history.spans ≠ []) {σ : Type}
    (files : FileAccess (StateM σ)) (around : Surroundings) (s : σ) (path : String)
    (invocation : Invocation) (hcommand : invocation.command = .history path spelling)
    (hcompiles : files.Compiles s path c) :
    let response := ((invocation.carryOut files around).run s).1
    response.code = 0 ∧ response.err = "" ∧
      history.ReportedBy c.graph invocation response.out := by
  obtain ⟨log, hresponse⟩ :=
    invocation.run_history_of_typeHistory files around s hcommand hcompiles hhistory
  dsimp only
  rw [hresponse]
  exact ⟨Invocation.code_shown _ _ _, Invocation.err_shown _ _ _,
    history.reportedBy_shown c.graph _ hspans⟩

variable {config : Config} {workers : Nat}

/-- **The history of a type is a faithful partition.** If the spelling is read as a name of the
graph, there is a history, and its spans stand for groups of versions in a row that make up the
chain: each version is listed once, in order, with the node that is in force there, and no two spans
have the same node. A span of a name that evolves is labelled with its last version, and there is
one for each label; any other name has a single span. The upgrades of a base or super type lead from
each span to the next one, and all other names have none. On every file that holds the schema the
command succeeds, and what it writes reports just these spans and upgrades. -/
theorem typeHistory_partition {c : Compilation} (h : config.compile workers = .ok c)
    {spelling : String} {ref : TypeRef} (href : TypeRef.parse spelling = .ok ref)
    (hname : c.graph.IsName ref.canonical) :
    ∃ history, c.typeHistory spelling = .ok history ∧ history.type = ref.canonical ∧
      history.spans.flatMap NodeSpan.versions = c.chain.versions.map Version.name ∧
      (c.chain.versions.map Version.name).Nodup ∧
      (history.spans.map fun span => span.node.id).Nodup ∧
      (∃ groups, groups.flatten = c.chain.versions ∧
        List.Forall₂ (NodeSpan.Covers c.graph ref.canonical) history.spans groups ∧
        (c.IsEvolving ref.canonical → List.Forall₂ (fun span group =>
          span.node.version = (group.getLast?).map Version.index) history.spans groups)) ∧
      (c.IsEvolving ref.canonical → ∃ labels, c.graph.labels ref.canonical = .ok labels ∧
        history.spans.map (fun span => span.node.version) = labels.map some) ∧
      (¬c.IsEvolving ref.canonical →
        ∃ span, history.spans = [span] ∧ span.node.version = none) ∧
      (c.IsEvolvingType ref.canonical →
        history.upgrades.map (fun path => (path.source, path.target)) =
          (history.spans.zip history.spans.tail).map fun ends =>
            (ends.1.node.identity, ends.2.node.identity)) ∧
      (¬c.IsEvolvingType ref.canonical → history.upgrades = []) ∧
      ∀ {σ : Type} (files : FileAccess (StateM σ)) (around : Surroundings) (s : σ) (path : String)
        (invocation : Invocation), invocation.command = .history path spelling →
        files.Compiles s path c →
        let response := ((invocation.carryOut files around).run s).1
        response.code = 0 ∧ response.err = "" ∧
          history.ReportedBy c.graph invocation response.out := by
  have hc := sound_of_compile h
  have hchain := (Config.accepts_of_compile h).chain
  have hlinked : c.chain.Linked := Chain.linked_of_ofDefinition hchain
  obtain ⟨history, hhistory⟩ := (exists_typeHistory_iff h spelling).mpr ⟨ref, href, hname⟩
  obtain ⟨found, hfound, spans, hspans, rfl⟩ := typeHistory_eq_ok hhistory
  obtain rfl := Except.ok.inj (href.symm.trans hfound)
  obtain ⟨groups, hflatten, hcovers⟩ := exists_groups hc hspans
  have hmem := (hc.graph.isName_iff hc.schema).mp hname
  have hevolves := evolves_iff hc hname
  have hlisted : spans.flatMap NodeSpan.versions = c.chain.versions.map Version.name := by
    rw [← hflatten, List.map_flatten, List.flatMap,
      map_eq_map_of_forall₂ hcovers fun _ _ hgroup => hgroup.versions]
  have hsome : spans ≠ [] := by
    rintro rfl
    have hsize : 0 < c.chain.versions.length := hc.schema.chain.nonempty
    simp [← hflatten, List.forall₂_nil_left_iff.mp hcovers] at hsize
  have hpaths : ¬c.IsEvolvingType ref.canonical → c.plan.pathsFor ref.canonical = [] := fun hnot =>
    pathsFor_eq_nil hc (mt (isUpgradable_iff_isEvolvingType hc).mp hnot)
  refine ⟨_, hhistory, rfl, hlisted, Chain.nodup_names hchain, ?_⟩
  by_cases hevolving : c.IsEvolving ref.canonical
  · obtain ⟨labels, hlabels, hversions⟩ :=
      map_version_spans hc hlinked (hevolves.mpr hevolving) hspans
    have hdistinct :=
      nodup_ids_of_labels hc hlabels hmem (hevolves.mpr hevolving) hcovers hversions
    exact ⟨hdistinct, ⟨groups, hflatten, hcovers, fun _ =>
      version_eq_last hc hlinked (hevolves.mpr hevolving) hflatten hcovers hdistinct⟩,
      fun _ => ⟨_, hlabels, hversions⟩, fun hnot => absurd hevolving hnot,
      fun htype => map_ends_upgrades hc ((isUpgradable_iff_isEvolvingType hc).mpr htype) hlabels
        hcovers hversions, hpaths, reportedBy_carryOut hhistory hsome⟩
  · obtain ⟨span, rfl, hversion⟩ := exists_span_of_leaf hc hmem
      (Bool.eq_false_iff.mpr (mt hevolves.mp hevolving)) hspans
    exact ⟨List.nodup_singleton _, ⟨groups, hflatten, hcovers, fun hyes => absurd hyes hevolving⟩,
      fun hyes => absurd hyes hevolving, fun _ => ⟨span, rfl, hversion⟩,
      fun htype => absurd (.inl htype) hevolving, hpaths, reportedBy_carryOut hhistory hsome⟩

/-- In the sample the spans of `B` list both versions, and its upgrades lead from each span to the
next one. The document that tells of the native type in the small folder has its name. -/
theorem typeHistory_partition_sample :
    (∃ c history, Config.sample.compile 1 = .ok c ∧
      TypeRef.parse " B" = .ok ⟨"B", .plain⟩ ∧ c.graph.IsName "B" ∧ c.IsEvolvingType "B" ∧
      c.typeHistory " B" = .ok history ∧
      history.spans.flatMap NodeSpan.versions = c.chain.versions.map Version.name ∧
      history.upgrades.map (fun path => (path.source, path.target)) =
        (history.spans.zip history.spans.tail).map fun ends =>
          (ends.1.node.identity, ends.2.node.identity)) ∧
    let invocation : Invocation := ⟨.json, false, 0, .history "s" "int"⟩
    let response := ((invocation.carryOut Folder.access {}).run Folder.sample).1
    response.code = 0 ∧ ∃ document : Json, response.out = document.pretty ++ "\n" ∧
      document.member "type" = .text "int" := by
  constructor
  · obtain ⟨c, layout, h, -, hname, hlayout, -⟩ := Config.exists_compile_sample
    have hc := sound_of_compile h
    have hread : TypeRef.parse " B" = .ok ⟨"B", .plain⟩ := by decide +kernel
    have hspelling : TypeRef.canonical ⟨"B", .plain⟩ = "B" := TypeRef.canonical_plain "B"
    have htype : c.IsEvolvingType "B" := .inl (hc.schema.definition.base.mp
      ((hc.schema.layout?_isSome_iff hc.schema.chain.nonempty).mp
        (Option.isSome_of_eq_some hlayout)))
    obtain ⟨history, hhistory, -, hversions, -, -, -, -, -, hupgrades, -, -⟩ :=
      typeHistory_partition h hread (hspelling.symm ▸ hname)
    exact ⟨c, history, h, hread, hname, htype, hhistory, hversions,
      hupgrades (hspelling.symm ▸ htype)⟩
  · obtain ⟨c, hcompiles, hname⟩ := Folder.exists_compiles_sample
    obtain ⟨config, hcompile⟩ := hcompiles.exists_compile
    have hread : TypeRef.parse "int" = .ok ⟨"int", .plain⟩ := by decide +kernel
    have hspelling : TypeRef.canonical ⟨"int", .plain⟩ = "int" := TypeRef.canonical_plain "int"
    obtain ⟨history, -, htype, -, -, -, -, -, -, -, -, hwritten⟩ :=
      typeHistory_partition hcompile hread (hspelling.symm ▸ hname)
    obtain ⟨hcode, -, document, hout, hlisted⟩ := hwritten Folder.access {} Folder.sample "s"
      ⟨.json, false, 0, .history "s" "int"⟩ rfl hcompiles
    refine ⟨hcode, document, hout, ?_⟩
    rw [hlisted.type, htype, hspelling]

end Compilation

end SchemaEvolution

import SchemaEvolution.Proofs.Relabel

/-!
# Upgrades over mirrored steps

Where two schemas take the same step, they upgrade their instances the same way. The upgrades have
the same operations, call the same code with the same fields and assign the same values; only the
labels in their identities are others. Both derivations are followed side by side.

## Main definitions

* `Carried.Mirrors`: carried values of the two schemas in step
* `Crossing.Mirrors`: a base type on the two sides of both steps

## Main results

* `Crossing.Mirrors.replay_mirrored`: the same changes on values in step
* `Crossing.Mirrors.record_mirrored`, `Built.union_mirrored`: records and unions
* `Compilation.path_mirrored`: the path over a mirrored step is the same up to labels
* `Compilation.filter_paths_eq_map`: all paths over mirrored steps
-/

namespace SchemaEvolution

/-! ## Records -/

/-- **Carried values in step**: of the same type, with the same expression up to labels, and with
nodes of the same side. -/
structure Carried.Mirrors (replayed : Replayed) (graph graph' : Graph) (rename : Relabeling)
    (v v' : Nat) (carried carried' : Carried) : Prop where
  type : carried'.type = carried.type
  value : carried'.value = carried.value.relabel rename
  target : (carried.type ∈ replayed.typeRefs ∧
      graph.index.node? carried.type.canonical v = some carried.target ∧
      graph'.index.node? carried.type.canonical v' = some carried'.target) ∨
    (graph.index.node? carried.type.canonical (v + 1) = some carried.target ∧
      graph'.index.node? carried.type.canonical (v' + 1) = some carried'.target)

namespace Derivation

/-- A field as migration code sees it. -/
def given (field : NodeField) : ContextField := ⟨field.name, field.type⟩

/-- A context is read off the names and the types of the old fields. -/
theorem context_congr {old old' : Node} (hname : old'.name = old.name)
    (hfields : old'.fields.map given = old.fields.map given) (version : String) :
    context old' version = context old version := by
  have hfind : ∀ name, (old'.fields.find? fun field => field.name == name).map given =
      (old.fields.find? fun field => field.name == name).map given := by
    intro name
    have hmap : ∀ fields : List NodeField,
        (fields.find? fun field => field.name == name).map given =
          (fields.map given).find? fun field => field.field == name := by
      intro fields
      rw [List.find?_map]
      rfl
    rw [hmap, hmap, hfields]
  funext names
  cases names with
  | nil => rfl
  | cons first rest =>
    unfold context
    refine congrArg (· >>= _) (congrArg (fun f => List.mapM f (first :: rest)) ?_)
    funext name
    have hname' := hfind name
    generalize old'.fields.find? (fun field => field.name == name) = found',
      old.fields.find? (fun field => field.name == name) = found at hname'
    cases found' <;> cases found <;> simp_all [given]

/-- Changes whose code is at the same place leave the same entry in the log. -/
theorem operation_congr {source source' : Derivation} {old old' : Node} {version version' : Nat}
    (hcode : ∀ {type code names out out'}, source.resolve old version type code names = .ok out →
      source'.resolve old' version' type code names = .ok out' → out'.2.1 = out.2.1)
    {change : FieldChange TypeRef CodeRef} {resolved resolved' : ResolvedChange}
    (h : source.resolveChange old version change = .ok resolved)
    (h' : source'.resolveChange old' version' change = .ok resolved') :
    operation resolved' = operation resolved := by
  cases change with
  | move from' to' index =>
    obtain rfl := Except.ok.inj h
    obtain rfl := Except.ok.inj h'
    rfl
  | remove field =>
    obtain rfl := Except.ok.inj h
    obtain rfl := Except.ok.inj h'
    rfl
  | insert field type code names index =>
    obtain ⟨out, hout, rfl⟩ := FieldChange.traverse_insert_eq_ok h
    obtain ⟨out', hout', rfl⟩ := FieldChange.traverse_insert_eq_ok h'
    rw [operation, operation, hcode hout hout']
  | convert field type code names =>
    obtain ⟨out, hout, rfl⟩ := FieldChange.traverse_convert_eq_ok h
    obtain ⟨out', hout', rfl⟩ := FieldChange.traverse_convert_eq_ok h'
    rw [operation, operation, hcode hout hout']

end Derivation

/-- A base type on the two sides of mirrored steps. -/
structure Crossing.Mirrors {replayed replayed' : Replayed} {graph graph' : Graph} {v v' : Nat}
    {old next old' next' : Node} (x : Crossing replayed graph v old next)
    (x' : Crossing replayed' graph' v' old' next') : Prop where
  name : old'.name = old.name
  version : x'.version.name = x.version.name
  steps : x'.steps = x.steps
  before : x'.before = x.before
  after : x'.after = x.after

namespace Crossing

variable {replayed replayed' : Replayed} {graph graph' : Graph} {rename : Relabeling} {v v' : Nat}
  {old next old' next' : Node} {x : Crossing replayed graph v old next}
  {x' : Crossing replayed' graph' v' old' next'}

theorem mirrors_of_step (hs : replayed.MirrorsStep replayed' rename v v')
    (hname : old'.name = old.name) : x.Mirrors x' := by
  obtain ⟨version, version', hversion, hversion', hsame, hsteps⟩ := hs.version
  obtain rfl := Option.some.inj (x.getVersion.symm.trans hversion)
  obtain rfl := Option.some.inj (x'.getVersion.symm.trans hversion')
  refine ⟨hname, hsame, ?_, ?_, ?_⟩
  · rw [Crossing.steps, Crossing.steps, hsteps, hname]
  · have hbefore := x'.beforeLayout
    rw [hname, hs.before.layout, x.beforeLayout] at hbefore
    exact (Option.some.inj hbefore).symm
  · have hafter := x'.afterLayout
    rw [hname, hs.after.layout, x.afterLayout] at hafter
    exact (Option.some.inj hafter).symm

namespace Mirrors

variable (hx : x.Mirrors x')

include hx

/-- The old fields of both sides are those of one layout. -/
theorem oldFields : List.Forall₂ (fun field field' => ∃ entry ∈ x.before.entries,
    field.Matches (graph.index.node? · v) entry ∧ field'.Matches (graph'.index.node? · v') entry)
    old.fields old'.fields := by
  have hfields' := x'.oldFields
  rw [hx.before] at hfields'
  exact forall₂_of_common x.oldFields hfields'

/-- The new fields of both sides are those of one layout. -/
theorem nextFields : List.Forall₂ (fun field field' => ∃ entry ∈ x.after.entries,
    field.Matches (graph.index.node? · (v + 1)) entry ∧
      field'.Matches (graph'.index.node? · (v' + 1)) entry) next.fields next'.fields := by
  have hfields' := x'.nextFields
  rw [hx.after] at hfields'
  exact forall₂_of_common x.nextFields hfields'

/-- The same fields are handed to migration code. -/
theorem context_eq (version : String) :
    Derivation.context old' version = Derivation.context old version := by
  refine Derivation.context_congr hx.name (Eq.symm ?_) version
  refine map_eq_map_of_forall₂ hx.oldFields fun field field' hboth => ?_
  obtain ⟨entry, -, hmatches, hmatches'⟩ := hboth
  rw [Derivation.given, Derivation.given, hmatches.name, hmatches.type, hmatches'.name,
    hmatches'.type]

/-- The old values are in step. -/
theorem initial_mirrored (rename : Relabeling) :
    OrderedMap.Related (Carried.Mirrors replayed graph graph' rename v v')
      (Derivation.initial old) (Derivation.initial old') := by
  rw [OrderedMap.Related, x.entries_initial, x'.entries_initial, List.forall₂_map_left_iff,
    List.forall₂_map_right_iff]
  refine hx.oldFields.imp fun field field' hboth => ?_
  obtain ⟨entry, hentry, hmatches, hmatches'⟩ := hboth
  have href := Replayed.mem_typeRefs_of_layout x.beforeLayout (List.mem_map_of_mem hentry)
  have htarget := hmatches.target
  have htarget' := hmatches'.target
  rw [← hmatches.type] at href htarget htarget'
  refine ⟨hmatches.name.trans hmatches'.name.symm, ?_, ?_, .inl ⟨href, htarget, htarget'⟩⟩
  · exact hmatches'.type.trans hmatches.type.symm
  · rw [hmatches.name, hmatches'.name]
    rfl

variable (hs : replayed.MirrorsStep replayed' rename v v')

include hs

/-- Both schemas resolve the code of a change to the same place and hand it the same fields. -/
theorem resolve_mirrored {type : TypeRef} {code : CodeRef} {names : List String}
    {out out' : (TypeRef × NodeId) × (RefId × CodeContext)}
    (h : (replayed.derivation graph).resolve old (v + 1) type code names = .ok out)
    (h' : (replayed'.derivation graph').resolve old' (v' + 1) type code names = .ok out') :
    out.1.1 = type ∧ out'.1.1 = type ∧ out'.2 = out.2 ∧
      graph.index.node? type.canonical (v + 1) = some out.1.2 ∧
        graph'.index.node? type.canonical (v' + 1) = some out'.1.2 := by
  obtain ⟨htype, hcode, hcontext, htarget⟩ := Derivation.resolve_eq_ok_iff.mp h
  obtain ⟨htype', hcode', hcontext', htarget'⟩ := Derivation.resolve_eq_ok_iff.mp h'
  refine ⟨htype, htype', Prod.ext ?_ ?_, htarget, htarget'⟩
  · have hfound : (CodeRef.registry replayed.chain).idxOf? code = some out.2.1 :=
      Derivation.reference_eq_ok_iff.mp hcode
    have hfound' : (CodeRef.registry replayed'.chain).idxOf? code = some out'.2.1 :=
      Derivation.reference_eq_ok_iff.mp hcode'
    exact Option.some.inj (hfound'.symm.trans (hs.code hfound))
  · have hversion : (replayed.derivation graph).chain.nameOf (v + 1) = x.version.name :=
      x.nameOf_eq
    have hversion' : (replayed'.derivation graph').chain.nameOf (v' + 1) = x'.version.name :=
      x'.nameOf_eq
    rw [hversion', hx.version, hx.context_eq, ← hversion, hcontext] at hcontext'
    exact (Except.ok.inj hcontext').symm

/-- **Changes on values in step** leave the same log and values in step. -/
theorem replay_mirrored {steps : List Step} {carried carried' out out' : OrderedMap Carried}
    {log log' : List FieldOperation}
    (h : OrderedMap.Related (Carried.Mirrors replayed graph graph' rename v v') carried carried')
    (hreplay : (replayed.derivation graph).replay old (v + 1) steps carried = .ok (log, out))
    (hreplay' : (replayed'.derivation graph').replay old' (v' + 1) steps carried' =
      .ok (log', out')) :
    log' = log.map (FieldOperation.relabel rename) ∧
      OrderedMap.Related (Carried.Mirrors replayed graph graph' rename v v') out out' := by
  induction steps generalizing carried carried' log log' with
  | nil =>
    obtain ⟨rfl, rfl⟩ := Prod.mk.inj (Except.ok.inj hreplay)
    obtain ⟨rfl, rfl⟩ := Prod.mk.inj (Except.ok.inj hreplay')
    exact ⟨rfl, h⟩
  | cons step rest ih =>
    obtain ⟨change, middle, later, hchange, happly, hlater, rfl⟩ :=
      Derivation.replay_cons_eq_ok hreplay
    obtain ⟨change', middle', later', hchange', happly', hlater', rfl⟩ :=
      Derivation.replay_cons_eq_ok hreplay'
    have hsite : (replayed'.derivation graph').chain.nameOf (v' + 1) =
        (replayed.derivation graph).chain.nameOf (v + 1) :=
      x'.nameOf_eq.trans (hx.version.trans x.nameOf_eq.symm)
    rw [hsite] at happly'
    have hagree : AgreeUpTo
        (OrderedMap.Related (Carried.Mirrors replayed graph graph' rename v v'))
        (change.apply Derivation.start Derivation.rework
          ⟨step.type, (replayed.derivation graph).chain.nameOf (v + 1)⟩ carried)
        (change'.apply Derivation.start Derivation.rework
          ⟨step.type, (replayed.derivation graph).chain.nameOf (v + 1)⟩ carried') := by
      refine FieldChange.apply_related_resolved (fun hresolve hresolve' => ?_)
        (fun hresolve hresolve' _ _ hab => ?_) hchange hchange' h _
      · obtain ⟨rfl, htype', hcode, htarget, htarget'⟩ := hx.resolve_mirrored hs hresolve hresolve'
        refine ⟨htype', ?_, .inr ⟨htarget, htarget'⟩⟩
        rw [Derivation.start, Derivation.start, hcode]
        rfl
      · obtain ⟨rfl, htype', hcode, htarget, htarget'⟩ := hx.resolve_mirrored hs hresolve hresolve'
        refine ⟨htype', ?_, .inr ⟨htarget, htarget'⟩⟩
        rw [Derivation.rework, Derivation.rework, hcode, hab.value]
        rfl
    obtain ⟨found', hfound', hmiddle⟩ := hagree.exists_right happly
    obtain rfl := Except.ok.inj (happly'.symm.trans hfound')
    obtain ⟨hlog, hout⟩ := ih hmiddle hlater hlater'
    have hoperation : Derivation.operation change' = Derivation.operation change := by
      refine Derivation.operation_congr (fun hresolve hresolve' => ?_) hchange hchange'
      exact congrArg Prod.fst (hx.resolve_mirrored hs hresolve hresolve').2.2.1
    refine ⟨?_, hout⟩
    rw [hoperation, hlog, List.map_cons, Derivation.relabel_operation]

variable (hr : replayed.Sound) (hr' : replayed'.Sound) (hg : Built replayed 0 graph.sketch)
  (hg' : Built replayed' 0 graph'.sketch) (he : replayed.Embeds replayed')

include hr hr' hg hg' he

omit hx in
/-- **An assignment in step** is the same up to labels: both values are carried over, or both are
upgraded. -/
theorem assign_mirrored {field : String} {carried carried' : Carried}
    {declared declared' : NodeField}
    (h : Carried.Mirrors replayed graph graph' rename v v' carried carried')
    (htype : declared'.type = declared.type)
    (htarget : graph.index.node? declared.type.canonical (v + 1) = some declared.target)
    (htarget' : graph'.index.node? declared.type.canonical (v' + 1) = some declared'.target)
    {log log' : List FieldOperation} {assignment assignment' : Assignment}
    (hassign : (replayed.derivation graph).assign old next v field carried declared =
      .ok (log, assignment))
    (hassign' : (replayed'.derivation graph').assign old' next' v' field carried' declared' =
      .ok (log', assignment')) :
    log' = log.map (FieldOperation.relabel rename) ∧
      assignment' = assignment.relabel rename := by
  obtain ⟨hsame, hcases⟩ := Derivation.cases_of_assign hassign
  obtain ⟨hsame', hcases'⟩ := Derivation.cases_of_assign hassign'
  rw [← hsame] at htarget htarget'
  have hkept : carried.target = declared.target → carried'.target = declared'.target →
      log' = log.map (FieldOperation.relabel rename) ∧
        assignment' = assignment.relabel rename := by
    intro hstays hstays'
    obtain ⟨-, rfl, rfl⟩ := hcases.resolve_right fun hdiffers => hdiffers.1 hstays
    obtain ⟨-, rfl, rfl⟩ := hcases'.resolve_right fun hdiffers => hdiffers.1 hstays'
    rw [h.value, htype]
    simp only [ValueExpr.relabel_eq_oldField_iff]
    refine ⟨?_, rfl⟩
    split <;> rfl
  rcases h.target with ⟨href, hold, hold'⟩ | ⟨hnew, hnew'⟩
  · have hname := hr.canonical_mem_names href
    have hshared := hg.shared (Nat.zero_le v) hs.after.lt_size hname
    have hshared' := hg'.shared (Nat.zero_le v') hs.after.lt_size' (he.mem_names hr hr' hname)
    have haffects := hs.affected_iff hr hr' he hname
    by_cases haffected : replayed.Affected v carried.type.canonical
    · have hdiffers : carried.target ≠ declared.target := fun hstays =>
        hshared.mp (hold.trans (htarget.trans (congrArg some hstays.symm)).symm) haffected
      have hdiffers' : carried'.target ≠ declared'.target := fun hstays =>
        hshared'.mp (hold'.trans (htarget'.trans (congrArg some hstays.symm)).symm)
          (haffects.mpr haffected)
      obtain ⟨-, first, steps, hnested, rfl, rfl⟩ := hcases.resolve_left fun h => hdiffers h.1
      obtain ⟨-, first', steps', hnested', rfl, rfl⟩ := hcases'.resolve_left fun h => hdiffers' h.1
      obtain ⟨from', to', hfrom, hto, hfound⟩ :=
        hg.exists_nested_type hr hs.after.lt_size href haffected
      obtain ⟨from'', to'', hfrom', hto', hfound'⟩ :=
        hg'.exists_nested_type hr' hs.after.lt_size' (he.typeRefs href) (haffects.mpr haffected)
      rw [h.type] at hnested'
      obtain ⟨rfl, rfl⟩ := Prod.mk.inj (Except.ok.inj (hnested.symm.trans hfound))
      obtain ⟨rfl, rfl⟩ := Prod.mk.inj (Except.ok.inj (hnested'.symm.trans hfound'))
      rw [hs.before.identity_eq hr hr' hg hg' he hfrom hfrom',
        hs.after.identity_eq hr hr' hg hg' he hto hto', h.type, h.value, htype]
      exact ⟨rfl, rfl⟩
    · have hstays : carried.target = declared.target :=
        Option.some.inj (hold.symm.trans ((hshared.mpr haffected).trans htarget))
      have hstays' : carried'.target = declared'.target :=
        Option.some.inj (hold'.symm.trans
          ((hshared'.mpr (mt haffects.mp haffected)).trans htarget'))
      exact hkept hstays hstays'
  · exact hkept (Option.some.inj (hnew.symm.trans htarget))
      (Option.some.inj (hnew'.symm.trans htarget'))

omit hx in
theorem assignAll_mirrored {carried carried' : List (String × Carried)}
    {declared declared' : List NodeField}
    (h : List.Forall₂ (fun entry entry' => entry.1 = entry'.1 ∧
      Carried.Mirrors replayed graph graph' rename v v' entry.2 entry'.2) carried carried')
    (hdeclared : List.Forall₂ (fun field field' => ∃ entry ∈ x.after.entries,
      field.Matches (graph.index.node? · (v + 1)) entry ∧
        field'.Matches (graph'.index.node? · (v' + 1)) entry) declared declared')
    {logs logs' : List FieldOperation} {assignments assignments' : List Assignment}
    (hassign : (replayed.derivation graph).assignAll old next v carried declared =
      .ok (logs, assignments))
    (hassign' : (replayed'.derivation graph').assignAll old' next' v' carried' declared' =
      .ok (logs', assignments')) :
    logs' = logs.map (FieldOperation.relabel rename) ∧
      assignments' = assignments.map (Assignment.relabel rename) := by
  induction h generalizing declared declared' logs logs' assignments assignments' with
  | nil =>
    unfold Derivation.assignAll at hassign hassign'
    obtain ⟨rfl, rfl⟩ := Prod.mk.inj (Except.ok.inj hassign)
    obtain ⟨rfl, rfl⟩ := Prod.mk.inj (Except.ok.inj hassign')
    exact ⟨rfl, rfl⟩
  | @cons entry entry' rest rest' hfirst _ ih =>
    obtain ⟨field, value⟩ := entry
    obtain ⟨field', value'⟩ := entry'
    obtain ⟨hfield, hvalue⟩ := hfirst
    obtain rfl : field = field' := hfield
    cases hdeclared with
    | nil =>
      unfold Derivation.assignAll at hassign hassign'
      obtain ⟨rfl, rfl⟩ := Prod.mk.inj (Except.ok.inj hassign)
      obtain ⟨rfl, rfl⟩ := Prod.mk.inj (Except.ok.inj hassign')
      exact ⟨rfl, rfl⟩
    | @cons own own' later later' hboth hlater =>
      obtain ⟨slot, -, hmatches, hmatches'⟩ := hboth
      obtain ⟨⟨log, assignment⟩, hown, hassign⟩ := bind_eq_ok.mp hassign
      obtain ⟨⟨restLogs, restAssignments⟩, hall, hassign⟩ := bind_eq_ok.mp hassign
      obtain ⟨rfl, rfl⟩ := Prod.mk.inj (Except.ok.inj hassign)
      obtain ⟨⟨log', assignment'⟩, hown', hassign'⟩ := bind_eq_ok.mp hassign'
      obtain ⟨⟨restLogs', restAssignments'⟩, hall', hassign'⟩ := bind_eq_ok.mp hassign'
      obtain ⟨rfl, rfl⟩ := Prod.mk.inj (Except.ok.inj hassign')
      have htarget := hmatches.target
      have htarget' := hmatches'.target
      rw [← hmatches.type] at htarget htarget'
      obtain ⟨hlog, hassignment⟩ := assign_mirrored hs hr hr' hg hg' he hvalue
        (hmatches'.type.trans hmatches.type.symm) htarget htarget' hown hown'
      obtain ⟨hlogs, hassignments⟩ := ih hlater hall hall'
      rw [hlog, hassignment, hlogs, hassignments, List.map_append, List.map_cons]
      exact ⟨rfl, rfl⟩

/-- **The upgrade of a record is the same up to labels.** -/
theorem record_mirrored {body body' : UpgradeBody} (hlabel : old.version = some v)
    (hlabel' : old'.version = some v')
    (h : (replayed.derivation graph).record old next = .ok body)
    (h' : (replayed'.derivation graph').record old' next' = .ok body') :
    body' = body.relabel rename := by
  obtain ⟨log, carried, logs, assignments, hreplay, -, hassign, rfl⟩ :=
    Derivation.exists_of_record h
  obtain ⟨log', carried', logs', assignments', hreplay', -, hassign', rfl⟩ :=
    Derivation.exists_of_record h'
  rw [hlabel, Option.getD_some] at hreplay hassign
  rw [hlabel', Option.getD_some] at hreplay' hassign'
  have hsteps : (((replayed.derivation graph).history.snapshot? (v + 1) old.name).map
      Snapshot.transformations).getD [] = x.steps := x.transformations_snapshot hr
  have hsteps' : (((replayed'.derivation graph').history.snapshot? (v' + 1) old'.name).map
      Snapshot.transformations).getD [] = x.steps :=
    (x'.transformations_snapshot hr').trans hx.steps
  rw [hsteps] at hreplay
  rw [hsteps'] at hreplay'
  obtain ⟨rfl, hcarried⟩ := hx.replay_mirrored hs (hx.initial_mirrored rename) hreplay hreplay'
  obtain ⟨rfl, rfl⟩ :=
    assignAll_mirrored hs hr hr' hg hg' he hcarried hx.nextFields hassign hassign'
  rw [UpgradeBody.relabel, List.map_append]

end Mirrors

end Crossing

/-! ## Unions -/

/-- **What an arm says**: the nodes of its member on both sides, and one step between them if the
member changes. -/
theorem Built.exists_sides_of_arm {replayed : Replayed} {graph : Graph} {v : Nat} {name : String}
    (hr : replayed.Sound) (hg : Built replayed 0 graph.sketch) (hv : v + 1 < replayed.chain.size)
    {old next : Node} {members : List Member} (hkind : old.kind = .super members)
    (hold : graph.nodeAt name v = .ok old) (hnext : graph.nodeAt name (v + 1) = .ok next)
    {member : Member} (hmember : member ∈ members) {arm : UnionArm}
    (h : (replayed.derivation graph).arm old next member = .ok arm) :
    ∃ first last, graph.nodeAt member.name v = .ok first ∧
      graph.nodeAt member.name (v + 1) = .ok last ∧ arm.source = first.identity ∧
      arm.target = last.identity ∧
      (¬replayed.Affected v member.name ∧ arm.action = .passThrough ∨
        replayed.Affected v member.name ∧ arm.action = .upgrade [last.identity]) := by
  obtain ⟨later, first, last, hlater, hfirst, hlast, hsource, htarget, haction⟩ :=
    Derivation.arm_eq_ok h
  obtain ⟨later', hlater', -, hid, hid'⟩ := hg.exists_later_member hr hkind hold hnext hmember
  obtain rfl := Option.some.inj (hlater.symm.trans hlater')
  have hfirst : graph.nodeAt member.name v = .ok first :=
    Graph.nodeAt_eq_ok_iff.mpr ⟨_, hid, Graph.node_eq_ok_iff.mp hfirst⟩
  have hlast : graph.nodeAt member.name (v + 1) = .ok last :=
    Graph.nodeAt_eq_ok_iff.mpr ⟨_, hid', Graph.node_eq_ok_iff.mp hlast⟩
  have hname := (hg.mem_of_node? hid).2
  refine ⟨first, last, hfirst, hlast, hsource, htarget, ?_⟩
  rcases haction with ⟨hsame, haction⟩ |
    ⟨hdiffers, a, b, steps, hversion, hversion', hchain, haction⟩
  · refine .inl ⟨(hg.shared (Nat.zero_le v) hv hname).mp ?_, haction⟩
    exact hid.trans ((congrArg some hsame).trans hid'.symm)
  · have haffected := hg.affected_of_node?_ne hv hname
      (by rw [hid, hid']; exact fun h => hdiffers (Option.some.inj h))
    obtain ⟨first', last', label, hfirst', hlast', hlabel, hlabel', hchain'⟩ :=
      hg.exists_nested hr hv hname haffected
    obtain rfl := Except.ok.inj (hfirst.symm.trans hfirst')
    obtain rfl := Except.ok.inj (hlast.symm.trans hlast')
    obtain rfl := Option.some.inj (hversion.symm.trans hlabel)
    obtain rfl := Option.some.inj (hversion'.symm.trans hlabel')
    obtain rfl := Except.ok.inj (hchain.symm.trans hchain')
    exact .inr ⟨haffected, haction⟩

namespace Built

variable {replayed replayed' : Replayed} {graph graph' : Graph} {rename : Relabeling} {v v' : Nat}
  {name : String} {old next old' next' : Node} {members members' : List Member}
  (hr : replayed.Sound) (hr' : replayed'.Sound)
  (hg : Built replayed 0 graph.sketch) (hg' : Built replayed' 0 graph'.sketch)
  (he : replayed.Embeds replayed') (hs : replayed.MirrorsStep replayed' rename v v')
  (hkind : old.kind = .super members) (hkind' : old'.kind = .super members')
  (hold : graph.nodeAt name v = .ok old) (hold' : graph'.nodeAt name v' = .ok old')
  (hnext : graph.nodeAt name (v + 1) = .ok next) (hnext' : graph'.nodeAt name (v' + 1) = .ok next')

include hr hr' hg hg' he hs hkind hkind' hold hold'

omit hs in
/-- Unions of one name have the same members, under the same numbers. -/
theorem members_mirrored : List.Forall₂ (fun member member' => member'.name = member.name ∧
    member'.discriminant = member.discriminant) members members' := by
  obtain ⟨-, -, hrep⟩ := hg.represents_of_nodeAt hold
  obtain ⟨-, -, hrep'⟩ := hg'.represents_of_nodeAt hold'
  have hdescribes := hrep.kind
  rw [hkind] at hdescribes
  cases hdescribes with
  | super hentry hmembers =>
    obtain ⟨found, hfound, hmembers'⟩ :=
      hrep'.kind.exists_super (he.get?_entries hr hr' hentry)
    obtain rfl := NodeKind.super.inj (hkind'.symm.trans hfound)
    have hsame : replayed'.blueprint.definition.superTypes =
        replayed.blueprint.definition.superTypes := he.superTypes
    rw [hsame] at hmembers'
    refine (forall₂_of_common hmembers hmembers').imp ?_
    rintro member member' ⟨entry, -, hmatches, hmatches'⟩
    exact ⟨hmatches'.name.trans hmatches.name.symm,
      hmatches'.discriminant.trans hmatches.discriminant.symm⟩

include hnext hnext'

/-- **An arm is the same up to labels.** -/
theorem arm_mirrored {member member' : Member} (hmember : member ∈ members)
    (hmember' : member' ∈ members')
    (hsame : member'.name = member.name ∧ member'.discriminant = member.discriminant)
    {arm arm' : UnionArm} (h : (replayed.derivation graph).arm old next member = .ok arm)
    (h' : (replayed'.derivation graph').arm old' next' member' = .ok arm') :
    arm' = arm.relabel rename := by
  obtain ⟨hname, hdiscriminant⟩ := hsame
  obtain ⟨first, last, hfirst, hlast, hsource, htarget, haction⟩ :=
    hg.exists_sides_of_arm hr hs.after.lt_size hkind hold hnext hmember h
  obtain ⟨first', last', hfirst', hlast', hsource', htarget', haction'⟩ :=
    hg'.exists_sides_of_arm hr' hs.after.lt_size' hkind' hold' hnext' hmember' h'
  rw [hname] at hfirst' hlast' haction'
  have hsourceId := hs.before.identity_eq hr hr' hg hg' he hfirst hfirst'
  have htargetId := hs.after.identity_eq hr hr' hg hg' he hlast hlast'
  obtain ⟨id, hid, -⟩ := Graph.nodeAt_eq_ok_iff.mp hfirst
  have haffects := hs.affected_iff hr hr' he (hg.mem_of_node? hid).2
  have hactions : arm'.action = arm.action.relabel rename := by
    rcases haction with ⟨hnot, haction⟩ | ⟨haffected, haction⟩
    · obtain ⟨-, haction'⟩ := haction'.resolve_right fun h => hnot (haffects.mp h.1)
      rw [haction, haction']
      rfl
    · obtain ⟨-, haction'⟩ := haction'.resolve_left fun h => h.1 (haffects.mpr haffected)
      rw [haction, haction', htargetId]
      rfl
  obtain ⟨hnumber, hmemberName⟩ := Derivation.arm_named h
  obtain ⟨hnumber', hmemberName'⟩ := Derivation.arm_named h'
  obtain ⟨discriminant, memberName, source, target, action⟩ := arm
  obtain ⟨discriminant', memberName', source', target', action'⟩ := arm'
  dsimp only at hnumber hnumber' hmemberName hmemberName' hsource hsource' htarget htarget' hactions
  rw [UnionArm.relabel, hnumber, hnumber', hdiscriminant, hmemberName, hmemberName', hname, hsource,
    hsource', hsourceId, htarget, htarget', htargetId, hactions]

/-- **The upgrade of a union is the same up to labels.** -/
theorem union_mirrored {body body' : UpgradeBody}
    (h : (replayed.derivation graph).union old next = .ok body)
    (h' : (replayed'.derivation graph').union old' next' = .ok body') :
    body' = body.relabel rename := by
  obtain ⟨arms, harms, h⟩ := bind_eq_ok.mp h
  obtain ⟨arms', harms', h'⟩ := bind_eq_ok.mp h'
  obtain rfl := Except.ok.inj h
  obtain rfl := Except.ok.inj h'
  rw [Node.members, hkind] at harms
  rw [Node.members, hkind'] at harms'
  have harms := mapM_eq_ok_iff.mp harms
  have harms' := mapM_eq_ok_iff.mp harms'
  have hmembers := members_mirrored hr hr' hg hg' he hkind hkind' hold hold'
  have hpairs := forall₂_of_common (forall₂_of_common harms hmembers).flip harms'
  have hsame : arms.map (UnionArm.relabel rename) = arms'.map id := by
    refine map_eq_map_of_forall₂ hpairs fun arm arm' hboth => ?_
    obtain ⟨member', hmember', ⟨member, hmember, harm, hsame⟩, harm'⟩ := hboth
    exact (arm_mirrored hr hr' hg hg' he hs hkind hkind' hold hold' hnext hnext' hmember hmember'
      hsame harm harm').symm
  rw [List.map_id] at hsame
  rw [UpgradeBody.relabel, hsame]

end Built

/-! ## Plans -/

/-- No two paths come before each other. -/
theorem Identity.Precedes.asymm {first second : Identity} (h : first.Precedes second) :
    ¬second.Precedes first := by
  rintro ⟨label₂, label₁', hlabel₂, hlabel₁', horder'⟩
  obtain ⟨label₁, label₂', hlabel₁, hlabel₂', horder⟩ := h
  obtain rfl := Option.some.inj (hlabel₁.symm.trans hlabel₁')
  obtain rfl := Option.some.inj (hlabel₂.symm.trans hlabel₂')
  rcases horder with hlt | ⟨hsame, hlt⟩ <;> rcases horder' with hgt | ⟨hsame', hgt⟩
  · omega
  · omega
  · omega
  · exact String.lt_irrefl _ (String.lt_trans hlt hgt)

/-- Sorted plans with the same paths are equal. -/
theorem eq_of_pairwise_precedes {paths paths' : List UpgradePath}
    (h : paths.Pairwise fun path later => path.source.Precedes later.source)
    (h' : paths'.Pairwise fun path later => path.source.Precedes later.source)
    (hmem : ∀ path, path ∈ paths ↔ path ∈ paths') : paths = paths' := by
  have hnodup : ∀ {paths : List UpgradePath},
      (paths.Pairwise fun path later => path.source.Precedes later.source) → paths.Nodup :=
    fun hsorted => hsorted.imp fun hprecedes hsame =>
      hprecedes.ne (congrArg UpgradePath.source hsame)
  have hperm := (List.perm_ext_iff_of_nodup (hnodup h) (hnodup h')).mpr hmem
  exact hperm.eq_of_pairwise
    (fun _ _ _ _ hprecedes hfollows => absurd hfollows hprecedes.asymm) h h'

namespace Compilation

variable {c c' : Compilation} {rename : Relabeling} {v v' : Nat} {type : String}
  {path path' : UpgradePath} (hc : c.Sound) (hc' : c'.Sound) (he : c.schema.Embeds c'.schema)

include hc hc' he

/-- **The path over a mirrored step is the same up to labels.** -/
theorem path_mirrored (hs : c.schema.MirrorsStep c'.schema rename v v')
    (hpath : path ∈ c.plan.paths) (hpath' : path' ∈ c'.plan.paths)
    (hsource : path.source = ⟨type, some v⟩) (hsource' : path'.source = ⟨type, some v'⟩) :
    path' = path.relabel rename := by
  obtain ⟨version, old, next, htype, hfrom, htarget, hlabel, -, hold, hnext, hbodies⟩ :=
    exists_sides hc hpath
  obtain ⟨version', old', next', htype', hfrom', htarget', hlabel', -, hold', hnext', hbodies'⟩ :=
    exists_sides hc' hpath'
  obtain ⟨hname, hversion⟩ := Identity.mk.inj (hfrom.symm.trans hsource)
  obtain ⟨hname', hversion'⟩ := Identity.mk.inj (hfrom'.symm.trans hsource')
  obtain rfl := Option.some.inj hversion
  obtain rfl := Option.some.inj hversion'
  subst hname
  have hbody : path'.body = path.body.relabel rename := by
    obtain ⟨-, -, hrep⟩ := hc.graph.represents_of_nodeAt hold
    obtain ⟨-, -, hrep'⟩ := hc'.graph.represents_of_nodeAt hold'
    rcases hbodies with ⟨fields, hkind, hrecord⟩ | ⟨members, hkind, hunion⟩
    · have hbase := Replayed.base_of_describes (hkind ▸ hrep.kind)
      have hbase' : c'.schema.definition.catalog.category? old'.name = some .base := by
        rw [hname', he.catalog, hbase]
      obtain ⟨x⟩ := Crossing.exists_crossing hc.graph hs.after.lt_size hbase hold hnext
      obtain ⟨x'⟩ := Crossing.exists_crossing hc'.graph hs.after.lt_size' hbase' hold' hnext'
      have hx : x.Mirrors x' := Crossing.mirrors_of_step hs hname'
      rcases hbodies' with ⟨fields', -, hrecord'⟩ | ⟨members', hkind', -⟩
      · exact hx.record_mirrored hs hc.schema hc'.schema hc.graph hc'.graph he hlabel hlabel'
          hrecord hrecord'
      · obtain ⟨-, fields', -, hkind'', -⟩ :=
          hrep'.kind.exists_base (Replayed.entry_declared_iff.mpr hbase')
        cases hkind'.symm.trans hkind''
    · rw [hname'] at hold' hnext'
      rcases hbodies' with ⟨fields', hkind', -⟩ | ⟨members', hkind', hunion'⟩
      · have hdescribes := hrep.kind
        rw [hkind] at hdescribes
        cases hdescribes with
        | super hentry =>
          have hentry' := he.get?_entries hc.schema hc'.schema hentry
          rw [← hname'] at hentry'
          obtain ⟨members', hkind'', -⟩ := hrep'.kind.exists_super hentry'
          cases hkind'.symm.trans hkind''
      · exact Built.union_mirrored hc.schema hc'.schema hc.graph hc'.graph he hs hkind hkind'
          hold hold' hnext hnext' hunion hunion'
  rw [hname'] at hold' hnext'
  have hfirst := hs.before.identity_eq hc.schema hc'.schema hc.graph hc'.graph he hold hold'
  have hlast := hs.after.identity_eq hc.schema hc'.schema hc.graph hc'.graph he hnext hnext'
  have hown : path.source = old.identity := by rw [hfrom, Node.identity, hlabel]
  have hown' : path'.source = old'.identity := by rw [hfrom', Node.identity, hlabel']
  obtain ⟨type, source, target, body⟩ := path
  obtain ⟨type', source', target', body'⟩ := path'
  dsimp only at htype htype' htarget htarget' hown hown' hbody
  rw [UpgradePath.relabel, htype, htype', hname', hown, hown', hfirst, htarget, htarget', hlast,
    hbody]

/-- **The paths over mirrored steps are the same up to labels**, and in the same order. -/
theorem filter_paths_eq_map {place : Nat → Nat} (hplace : ∀ {v w}, v < w → place v < place w)
    (hs : ∀ {v}, v + 1 < c.schema.chain.size →
      c.schema.MirrorsStep c'.schema rename v (place v))
    {p : UpgradePath → Bool} (hp : ∀ path ∈ c'.plan.paths, p path = true ↔
      ∃ v, v + 1 < c.schema.chain.size ∧ path.source.version = some (place v)) :
    c'.plan.paths.filter p = c.plan.paths.map (UpgradePath.relabel rename) := by
  have hright : ∀ path ∈ c.plan.paths, ∃ label, label + 1 < c.schema.chain.size ∧
      path.source = ⟨path.type, some label⟩ ∧ path.relabel rename ∈ c'.plan.paths ∧
        (path.relabel rename).source = ⟨path.type, some (place label)⟩ := by
    intro path hpath
    obtain ⟨label, next, hconnects⟩ := exists_connects hc hpath
    have hstep := hs hconnects.lt_size
    have hname := hconnects.type.mem_names
    obtain ⟨path', hpath', -, hsource'⟩ := exists_path_of_affected hc'
      (he.isUpgradable_iff.mpr hconnects.type) hstep.after.lt_size'
      ((hstep.affected_iff hc.schema hc'.schema he hname).mpr hconnects.affected)
    obtain rfl := path_mirrored hc hc' he hstep hpath hpath' hconnects.source hsource'
    exact ⟨label, hconnects.lt_size, hconnects.source, hpath', hsource'⟩
  refine eq_of_pairwise_precedes ((pairwise_paths hc').filter p) ?_ fun path' => ?_
  · refine List.pairwise_map.mpr ((pairwise_paths hc).imp_of_mem ?_)
    rintro path later hpath hlater ⟨label, label', hlabel, hlabel', horder⟩
    obtain ⟨v, -, hsource, -, hsource'⟩ := hright path hpath
    obtain ⟨w, -, hsourceLater, -, hsourceLater'⟩ := hright later hlater
    rw [hsource] at hlabel horder
    rw [hsourceLater] at hlabel' horder
    obtain rfl := Option.some.inj hlabel
    obtain rfl := Option.some.inj hlabel'
    refine ⟨place v, place w, ?_, ?_, ?_⟩
    · rw [hsource']
    · rw [hsourceLater']
    · rw [hsource', hsourceLater']
      exact horder.imp hplace fun ⟨hsame, hlt⟩ => ⟨congrArg place hsame, hlt⟩
  · rw [List.mem_filter, List.mem_map]
    constructor
    · rintro ⟨hpath', hfilter⟩
      obtain ⟨v, hv, hversion⟩ := (hp path' hpath').mp hfilter
      obtain ⟨label, next, hconnects⟩ := exists_connects hc' hpath'
      rw [hconnects.source] at hversion
      obtain rfl := Option.some.inj hversion
      have hstep := hs hv
      have htype := he.isUpgradable_iff.mp hconnects.type
      obtain ⟨path, hpath, -, hsource⟩ := exists_path_of_affected hc htype hv
        ((hstep.affected_iff hc.schema hc'.schema he htype.mem_names).mp hconnects.affected)
      exact ⟨path, hpath, (path_mirrored hc hc' he hstep hpath hpath' hsource
        hconnects.source).symm⟩
    · rintro ⟨path, hpath, rfl⟩
      obtain ⟨label, hlt, -, hpath', hsource'⟩ := hright path hpath
      refine ⟨hpath', (hp _ hpath').mpr ⟨label, hlt, ?_⟩⟩
      rw [hsource']

end Compilation

end SchemaEvolution

import SchemaEvolution.Proofs.ChangedSet
import SchemaEvolution.Proofs.Derive
import SchemaEvolution.Proofs.Execution

/-!
# What a derived upgrade means

Evaluating the expressions of an upgrade path on an old record yields what executing the
transformations on the record yields, for every interpretation of the code. The two run in step:
while the transformations are executed, each field holds the value of the expression that is
carried for it, and a value is upgraded in the end exactly when its type changes.

## Main definitions

* `CodeContext.Lists`: a context lists the fields that a change names
* `Holds`: an executed field holds the value of the carried expression
* `Compilation.transformations`: the transformations of a version that target a type

## Main results

* `Crossing.start_holds`, `Crossing.steps_hold`: execution and derivation stay in step
* `Crossing.eval_of_assign`: an assignment has the value that execution ends with
* `Compilation.evalAssignments_eq_run`: derived upgrades mean what the transformations do
-/

namespace SchemaEvolution

variable {α : Type} {interpretation : Interpretation α} {record : OrderedMap α}

/-! ## The fields that code reads -/

theorem exists_readFields {names : List String} (h : ∀ name ∈ names, name ∈ record) :
    ∃ given, readFields record names = some given := by
  have hget : ∀ name ∈ names, ∃ entry,
      (record.get? name).map (Prod.mk name) = some entry := by
    intro name hname
    obtain ⟨value, hvalue⟩ := OrderedMap.exists_get?_of_mem (h name hname)
    exact ⟨_, by rw [hvalue]; rfl⟩
  obtain ⟨given, hgiven⟩ := exists_forall₂ hget
  exact ⟨given, mapM_eq_some_iff.mpr hgiven⟩

/-- **A context lists the fields that a change names**: each is a field of the old node with its
type there, in the order of the names. There is no context where none is named. -/
def CodeContext.Lists (old : Node) (names : List String) (context : CodeContext) : Prop :=
  (context = none ↔ names = []) ∧
    List.Forall₂ (fun name field => field.field = name ∧
      ∃ own ∈ old.fields, own.name = name ∧ own.type = field.type) names (context.getD [])

theorem CodeContext.lists_of_context {old : Node} {version : String} {names : List String}
    {context : CodeContext} (h : Derivation.context old version names = .ok context) :
    context.Lists old names := by
  cases names with
  | nil =>
    obtain rfl := Except.ok.inj h
    exact ⟨Iff.rfl.trans (iff_of_true rfl rfl), .nil⟩
  | cons first rest =>
    obtain ⟨fields, hfields, h⟩ := bind_eq_ok.mp h
    obtain rfl := Except.ok.inj h
    refine ⟨iff_of_false nofun nofun, (mapM_eq_ok_iff.mp hfields).imp fun name field hname => ?_⟩
    split at hname
    · rename_i own hfind
      obtain rfl := Except.ok.inj hname
      have hsame : own.name = name := by simpa using List.find?_some hfind
      exact ⟨hsame, own, List.mem_of_find?_eq_some hfind, hsame, rfl⟩
    · cases hname

/-- A context has the names that a change reads, all of them fields of the old node. -/
theorem CodeContext.Lists.fields {old : Node} {names : List String} {context : CodeContext}
    (h : context.Lists old names) : (context.getD []).map ContextField.field = names ∧
      ∀ name ∈ names, ∃ field ∈ old.fields, field.name = name := by
  obtain ⟨-, hfields⟩ := h
  constructor
  · rw [← List.forall₂_eq_eq_eq, List.forall₂_map_left_iff]
    exact hfields.flip.imp fun _ _ hfield => hfield.1
  · intro name hname
    obtain ⟨_, -, -, own, hown, hsame, -⟩ := exists_right_of_forall₂ hfields hname
    exact ⟨own, hown, hsame⟩

/-- Code is given the same fields by the plan and by the executed transformations. -/
theorem CodeContext.exists_read {old : Node} {version : String} {names : List String}
    {context : CodeContext} (h : Derivation.context old version names = .ok context)
    (hrecord : ∀ field ∈ old.fields, field.name ∈ record) :
    ∃ given, CodeContext.read record context = some given ∧
      readFields record names = some given := by
  obtain ⟨hnames, hfields⟩ := (CodeContext.lists_of_context h).fields
  have hmem : ∀ name ∈ names, name ∈ record := by
    intro name hname
    obtain ⟨field, hfield, rfl⟩ := hfields name hname
    exact hrecord field hfield
  obtain ⟨given, hgiven⟩ := exists_readFields hmem
  refine ⟨given, ?_, hgiven⟩
  cases context with
  | none =>
    obtain rfl : [] = names := hnames
    exact hgiven
  | some fields =>
    rw [← hgiven, ← hnames]
    rfl

/-! ## Execution and derivation in step -/

/-- **An executed field holds the value of the carried expression**, and the carried node is that
of the old side exactly while the value is the one of the old instance. -/
structure Holds (interpretation : Interpretation α) (record : OrderedMap α) (replayed : Replayed)
    (graph : Graph) (v : Nat) (held : Held α) (carried : Carried) : Prop where
  type : carried.type = held.type
  value : carried.value.eval interpretation (CodeRef.registry replayed.chain) record =
    some held.value
  old : held.original = true → held.type ∈ replayed.typeRefs ∧
    graph.index.node? held.type.canonical v = some carried.target
  new : held.original = false →
    graph.index.node? held.type.canonical (v + 1) = some carried.target

namespace Crossing

variable {replayed : Replayed} {graph : Graph} {v : Nat} {old next : Node}
  (x : Crossing replayed graph v old next)

theorem mem_record (hrecord : ∀ field, field ∈ record ↔ field ∈ x.before) :
    ∀ field ∈ old.fields, field.name ∈ record := by
  intro field hfield
  obtain ⟨entry, hentry, hmatches⟩ := exists_left_of_forall₂ x.oldFields hfield
  rw [hrecord, hmatches.name]
  exact List.mem_map_of_mem hentry

/-- The fields that execution starts with hold the values that derivation starts with. -/
theorem start_holds (interpretation : Interpretation α)
    (hrecord : ∀ field, field ∈ record ↔ field ∈ x.before) :
    ∃ fields : OrderedMap (Held α), Execution.start x.before record = some fields.entries ∧
      OrderedMap.Related (Holds interpretation record replayed graph v) fields
        (Derivation.initial old) := by
  have hvalue : ∀ entry ∈ x.before.entries, ∃ held : String × Held α,
      ((record.get? entry.1).map fun value => (entry.1, (⟨value, entry.2, true⟩ : Held α))) =
        some held := by
    intro entry hentry
    obtain ⟨value, hget⟩ := OrderedMap.exists_get?_of_mem
      ((hrecord entry.1).mpr (List.mem_map_of_mem hentry))
    exact ⟨_, by rw [hget]; rfl⟩
  obtain ⟨fields, hfields⟩ := exists_forall₂ hvalue
  have hnames : x.before.entries.map Prod.fst = fields.map Prod.fst := by
    refine map_eq_map_of_forall₂ hfields fun entry held hheld => ?_
    obtain ⟨value, -, rfl⟩ := Option.map_eq_some_iff.mp hheld
    rfl
  refine ⟨⟨fields, hnames ▸ x.before.distinct⟩, mapM_eq_some_iff.mpr hfields, ?_⟩
  rw [OrderedMap.Related, x.entries_initial, List.forall₂_map_right_iff]
  refine (forall₂_of_common hfields x.oldFields).imp ?_
  rintro held field ⟨entry, hentry, hheld, hmatches⟩
  obtain ⟨value, hget, rfl⟩ := Option.map_eq_some_iff.mp hheld
  have href := Replayed.mem_typeRefs_of_layout x.beforeLayout (List.mem_map_of_mem hentry)
  rw [← hmatches.name] at hget
  refine ⟨hmatches.name.symm, hmatches.type, hget, fun _ => ⟨href, hmatches.target⟩, ?_⟩
  intro hnew
  cases hnew

/-- What a change brings in holds the value that execution creates. -/
theorem holds_of_resolve (hrecord : ∀ field ∈ old.fields, field.name ∈ record)
    {type : TypeRef} {code : CodeRef} {context : List String} {type' : TypeRef × NodeId}
    {code' : RefId × CodeContext}
    (h : (replayed.derivation graph).resolve old (v + 1) type code context = .ok (type', code')) :
    Holds interpretation record replayed graph v
        (FieldChange.created interpretation record type code context)
        (Derivation.start type' code' context) ∧
      ∀ held carried, Holds interpretation record replayed graph v held carried →
        Holds interpretation record replayed graph v
          (FieldChange.converted interpretation record type code context held)
          (Derivation.rework type' code' context carried) := by
  obtain ⟨htype, hcode, hcontext, htarget⟩ := Derivation.resolve_eq_ok_iff.mp h
  have hregistered := Derivation.getElem?_of_reference hcode
  have hregistered : (CodeRef.registry replayed.chain)[code'.1]? = some code := hregistered
  obtain ⟨given, hread, hgiven⟩ := CodeContext.exists_read hcontext hrecord
  refine ⟨⟨htype, ?_, nofun, fun _ => htarget⟩, fun held carried hheld =>
    ⟨htype, ?_, nofun, fun _ => htarget⟩⟩
  · simp [Derivation.start, FieldChange.created, ValueExpr.eval, hregistered, hread, hgiven]
  · simp [Derivation.rework, FieldChange.converted, ValueExpr.eval, hregistered, hread, hgiven,
      hheld.value]

variable (hr : replayed.Sound)

include hr

/-- **Execution and derivation stay in step**, change by change. -/
theorem steps_hold (hrecord : ∀ field, field ∈ record ↔ field ∈ x.before) {steps : List Step}
    (hsteps : ∀ step ∈ steps, step ∈ x.steps) {fields : OrderedMap (Held α)}
    {carried out : OrderedMap Carried} {operations : List FieldOperation}
    (h : OrderedMap.Related (Holds interpretation record replayed graph v) fields carried)
    (hreplay : (replayed.derivation graph).replay old (v + 1) steps carried =
      .ok (operations, out)) :
    ∃ fields' : OrderedMap (Held α),
      Execution.steps interpretation record steps fields.entries = some fields'.entries ∧
        OrderedMap.Related (Holds interpretation record replayed graph v) fields' out := by
  induction steps generalizing fields carried operations with
  | nil =>
    obtain ⟨-, rfl⟩ := Prod.mk.inj (Except.ok.inj hreplay)
    exact ⟨fields, rfl, h⟩
  | cons step rest ih =>
    obtain ⟨hstep, hrest⟩ := List.forall_mem_cons.mp hsteps
    obtain ⟨change, carried', later, hchange, happly, hlater, -⟩ :=
      Derivation.replay_cons_eq_ok hreplay
    have hagree : AgreeUpTo (OrderedMap.Related (Holds interpretation record replayed graph v))
        (step.change.apply (FieldChange.created interpretation record)
          (FieldChange.converted interpretation record)
          ⟨step.type, replayed.chain.nameOf (v + 1)⟩ fields)
        (change.apply Derivation.start Derivation.rework
          ⟨step.type, replayed.chain.nameOf (v + 1)⟩ carried) := by
      refine FieldChange.apply_related (fun type code context type' code' hresolve => ?_)
        (fun type code context type' code' hresolve => ?_) hchange h _
      · exact (holds_of_resolve (x.mem_record hrecord) hresolve).1
      · exact (holds_of_resolve (x.mem_record hrecord) hresolve).2
    obtain ⟨fields', hfields, hrelated⟩ := hagree.exists_left happly
    obtain ⟨given, hgiven⟩ := exists_readFields fun name hname =>
      (hrecord name).mpr ((x.checked hr hstep).1 name hname)
    have hexecute := FieldChange.execute_of_apply hgiven hfields
    obtain ⟨fields'', hrun, hlast⟩ := ih hrest hrelated hlater
    refine ⟨fields'', ?_, hlast⟩
    rw [Execution.steps, hexecute]
    exact hrun

end Crossing

/-! ## The assignments -/

/-- The assignment of a field, with its entry in the log: its value is carried over, or it is
upgraded. -/
theorem Derivation.cases_of_assign {source : Derivation} {old next : Node} {version : Nat}
    {field : String} {carried : Carried} {declared : NodeField} {log : List FieldOperation}
    {assignment : Assignment}
    (h : source.assign old next version field carried declared = .ok (log, assignment)) :
    carried.type = declared.type ∧
      (carried.target = declared.target ∧
          assignment = ⟨field, declared.type, carried.value⟩ ∧
          log = (if carried.value = .oldField field then [.carry field] else []) ∨
        carried.target ≠ declared.target ∧ ∃ first steps,
          source.nested carried.type version (version + 1) = .ok (first, steps) ∧
            assignment = ⟨field, declared.type,
              .upgrade carried.type.modifier first steps carried.value⟩ ∧
            log = [.upgrade field steps]) := by
  unfold assign at h
  by_cases htype : carried.type = declared.type
  · refine ⟨htype, ?_⟩
    rw [if_neg (by simp [htype])] at h
    split at h
    · obtain ⟨rfl, rfl⟩ := Prod.mk.inj (Except.ok.inj h)
      exact .inl ⟨‹_›, rfl, rfl⟩
    · obtain ⟨⟨first, steps⟩, hnested, h⟩ := bind_eq_ok.mp h
      obtain ⟨rfl, rfl⟩ := Prod.mk.inj (Except.ok.inj h)
      exact .inr ⟨‹_›, first, steps, hnested, rfl, rfl⟩
  · rw [if_pos (by simp [htype])] at h
    cases h

/-- The assignment of a field: its value is carried over or upgraded. -/
theorem Derivation.assign_eq_ok {source : Derivation} {old next : Node} {version : Nat}
    {field : String} {carried : Carried} {declared : NodeField} {log : List FieldOperation}
    {assignment : Assignment}
    (h : source.assign old next version field carried declared = .ok (log, assignment)) :
    carried.type = declared.type ∧ assignment.field = field ∧
      (carried.target = declared.target ∧ assignment.value = carried.value ∨
        carried.target ≠ declared.target ∧ ∃ first steps,
          source.nested carried.type version (version + 1) = .ok (first, steps) ∧
            assignment.value = .upgrade carried.type.modifier first steps carried.value) := by
  obtain ⟨htype, hcases⟩ := cases_of_assign h
  refine ⟨htype, ?_⟩
  rcases hcases with ⟨hsame, rfl, -⟩ | ⟨hdiffers, first, steps, hnested, rfl, -⟩
  · exact ⟨rfl, .inl ⟨hsame, rfl⟩⟩
  · exact ⟨rfl, .inr ⟨hdiffers, first, steps, hnested, rfl⟩⟩

/-- The carried values are assigned one after the other, each to the field in its place. -/
theorem Derivation.exists_outs_of_assignAll {source : Derivation} {old next : Node} {version : Nat}
    {carried : List (String × Carried)} {declared : List NodeField} {log : List FieldOperation}
    {assignments : List Assignment}
    (h : source.assignAll old next version carried declared = .ok (log, assignments)) :
    ∃ outs, List.Forall₂ (fun pair out =>
        source.assign old next version pair.1.1 pair.1.2 pair.2 = .ok out)
        (carried.zip declared) outs ∧
      outs.flatMap Prod.fst = log ∧ outs.map Prod.snd = assignments := by
  -- the fields of the next node are consumed along with the carried values
  induction carried generalizing declared log assignments with
  | nil =>
    unfold assignAll at h
    obtain ⟨rfl, rfl⟩ := Prod.mk.inj (Except.ok.inj h)
    exact ⟨[], .nil, rfl, rfl⟩
  | cons entry rest ih =>
    cases declared with
    | nil =>
      unfold assignAll at h
      obtain ⟨rfl, rfl⟩ := Prod.mk.inj (Except.ok.inj h)
      exact ⟨[], .nil, rfl, rfl⟩
    | cons field later =>
      obtain ⟨out, hassign, h⟩ := bind_eq_ok.mp h
      obtain ⟨⟨logs, assignments'⟩, hall, h⟩ := bind_eq_ok.mp h
      obtain ⟨rfl, rfl⟩ := Prod.mk.inj (Except.ok.inj h)
      obtain ⟨outs, houts, rfl, rfl⟩ := ih hall
      exact ⟨out :: outs, .cons hassign houts, rfl, rfl⟩

/-- There is one assignment for each field, in order. -/
theorem Derivation.assignAll_eq_ok {source : Derivation} {old next : Node} {version : Nat}
    {carried : List (String × Carried)} {declared : List NodeField} {log : List FieldOperation}
    {assignments : List Assignment}
    (hnames : declared.map NodeField.name = carried.map Prod.fst)
    (h : source.assignAll old next version carried declared = .ok (log, assignments)) :
    List.Forall₂ (fun entry assignment => ∃ field ∈ declared, ∃ log,
      source.assign old next version entry.1 entry.2 field = .ok (log, assignment))
      carried assignments := by
  obtain ⟨outs, houts, -, rfl⟩ := exists_outs_of_assignAll h
  have hlength : carried.length = declared.length := by
    simpa using (congrArg List.length hnames).symm
  have hcarried : (carried.zip declared).map Prod.fst = carried :=
    List.map_fst_zip (Nat.le_of_eq hlength)
  rw [← hcarried, List.forall₂_map_left_iff, List.forall₂_map_right_iff]
  refine ((List.forall₂_and_left _ _).mpr ⟨fun _ hpair => hpair, houts⟩).imp ?_
  rintro pair out ⟨hpair, hassign⟩
  exact ⟨pair.2, (List.of_mem_zip hpair).2, out.1, hassign⟩

namespace Crossing

variable {replayed : Replayed} {graph : Graph} {v : Nat} {old next : Node}
  (x : Crossing replayed graph v old next) (hr : replayed.Sound)
  (hg : Built replayed 0 graph.sketch)

include x hr hg

/-- **An assignment has the value that execution ends with.** -/
theorem eval_of_assign {changed : NameSet} (hchanged : graph.changedAt? v = some changed)
    (hmem : ∀ name, name ∈ changed ↔ replayed.Affected v name) {held : Held α} {carried : Carried}
    (h : Holds interpretation record replayed graph v held carried) {field : String}
    {declared : NodeField} (hdeclared : declared ∈ next.fields) {log : List FieldOperation}
    {assignment : Assignment} (hassign : (replayed.derivation graph).assign old next v field carried
      declared = .ok (log, assignment)) :
    assignment.field = field ∧ ∃ value, Execution.finish interpretation graph v held = some value ∧
      assignment.value.eval interpretation (CodeRef.registry replayed.chain) record =
        some value := by
  obtain ⟨htype, hfield, hvalue⟩ := Derivation.assign_eq_ok hassign
  obtain ⟨entry, -, hmatches⟩ := exists_left_of_forall₂ x.nextFields hdeclared
  have htarget : graph.index.node? held.type.canonical (v + 1) = some declared.target := by
    rw [← h.type, htype, hmatches.type]
    exact hmatches.target
  refine ⟨hfield, ?_⟩
  unfold Execution.finish
  rw [hchanged]
  simp only [Option.bind_eq_bind, Option.bind_some]
  by_cases hupgraded : held.original = true ∧ held.type.canonical ∈ changed
  · obtain ⟨horiginal, hin⟩ := hupgraded
    obtain ⟨href, hold⟩ := h.old horiginal
    have haffected := (hmem _).mp hin
    have hdiffers : carried.target ≠ declared.target := by
      intro hsame
      have hshared := (hg.shared (Nat.zero_le v) x.lt_size (hr.canonical_mem_names href)).mp
        (hold.trans (htarget.trans (by rw [hsame])).symm)
      exact hshared haffected
    obtain ⟨-, first, steps, hnested, hvalue⟩ := hvalue.resolve_left fun hsame => hdiffers hsame.1
    obtain ⟨first', last', hfirst, hlast, hnested'⟩ :=
      hg.exists_nested_type hr x.lt_size href haffected
    rw [h.type, hnested'] at hnested
    obtain ⟨rfl, rfl⟩ := Prod.mk.inj (Except.ok.inj hnested)
    rw [if_pos ⟨horiginal, hin⟩, hfirst, hlast, hvalue, ValueExpr.eval, h.value, h.type]
    exact ⟨_, rfl, rfl⟩
  · have hsame : carried.target = declared.target := by
      cases horiginal : held.original with
      | false => exact Option.some.inj ((h.new horiginal).symm.trans htarget)
      | true =>
        obtain ⟨href, hold⟩ := h.old horiginal
        have hnot : ¬replayed.Affected v held.type.canonical := fun haffected =>
          hupgraded ⟨horiginal, (hmem _).mpr haffected⟩
        have hshared := (hg.shared (Nat.zero_le v) x.lt_size (hr.canonical_mem_names href)).mpr hnot
        exact Option.some.inj (hold.symm.trans (hshared.trans htarget))
    obtain ⟨-, hvalue⟩ := hvalue.resolve_right fun hdiffers => hdiffers.1 hsame
    rw [if_neg hupgraded, hvalue, h.value]
    exact ⟨_, rfl, rfl⟩

end Crossing

/-! ## Record paths -/

/-- What a record body is made of: the values that the changes leave, which have the names of the
next fields, and the log and the values of their assignments. -/
theorem Derivation.exists_of_record {source : Derivation} {old next : Node} {body : UpgradeBody}
    (h : source.record old next = .ok body) :
    ∃ log carried logs assignments, source.replay old (old.version.getD 0 + 1)
        (((source.history.snapshot? (old.version.getD 0 + 1) old.name).map
          Snapshot.transformations).getD []) (initial old) = .ok (log, carried) ∧
      next.fields.map NodeField.name = carried.keys ∧
      source.assignAll old next (old.version.getD 0) carried.entries next.fields =
        .ok (logs, assignments) ∧ body = .record (log ++ logs) assignments := by
  unfold record at h
  obtain ⟨⟨log, carried⟩, hreplay, h⟩ := bind_eq_ok.mp h
  by_cases hnames : next.fields.map NodeField.name = carried.keys
  · dsimp only at h
    rw [if_neg (by simp [hnames])] at h
    obtain ⟨⟨logs, assignments⟩, hassign, h⟩ := bind_eq_ok.mp h
    exact ⟨log, carried, logs, assignments, hreplay, hnames, hassign, (Except.ok.inj h).symm⟩
  · dsimp only at h
    rw [if_pos (by simp [hnames])] at h
    cases h

/-- The record that a body computes: from the changes on carried values, one assignment for each
field of the next node. -/
theorem Derivation.record_eq_ok {source : Derivation} {old next : Node}
    {operations : List FieldOperation} {assignments : List Assignment}
    (h : source.record old next = .ok (.record operations assignments)) :
    ∃ log carried, source.replay old (old.version.getD 0 + 1)
        (((source.history.snapshot? (old.version.getD 0 + 1) old.name).map
          Snapshot.transformations).getD []) (initial old) = .ok (log, carried) ∧
      List.Forall₂ (fun entry assignment => ∃ field ∈ next.fields, ∃ log,
        source.assign old next (old.version.getD 0) entry.1 entry.2 field = .ok (log, assignment))
        carried.entries assignments := by
  obtain ⟨log, carried, logs, assignments', hreplay, hnames, hassign, hbody⟩ := exists_of_record h
  obtain ⟨-, rfl⟩ := UpgradeBody.record.inj hbody
  exact ⟨log, carried, hreplay, assignAll_eq_ok hnames hassign⟩

namespace Compilation

variable {c : Compilation}

/-- The transformations of a version that target a type, in the order of their declaration. -/
def transformations (c : Compilation) (version : Nat) (type : String) : List Step :=
  (((c.chain.get? version).map Version.transformations).getD []).filter
    fun step => step.type == type

/-- The steps between the two sides of a version are the transformations that target the type. -/
theorem transformations_eq {version : Nat} {old next : Node}
    (x : Crossing c.schema c.graph version old next) :
    c.transformations (version + 1) old.name = x.steps := by
  have hversion : c.chain.get? (version + 1) = some x.version := x.getVersion
  rw [transformations, hversion]
  rfl

/-- What is behind a path: the nodes of its type on the two sides of a version. -/
theorem exists_sides (hc : c.Sound) {path : UpgradePath} (hpath : path ∈ c.plan.paths) :
    ∃ version old next, path.type = old.name ∧ path.source = ⟨old.name, some version⟩ ∧
      path.target = next.identity ∧ old.version = some version ∧
      version + 1 < c.schema.chain.size ∧ c.graph.nodeAt old.name version = .ok old ∧
      c.graph.nodeAt old.name (version + 1) = .ok next ∧
      ((∃ fields, old.kind = .base fields ∧
          (c.schema.derivation c.graph).record old next = .ok path.body) ∨
        ∃ members, old.kind = .super members ∧
          (c.schema.derivation c.graph).union old next = .ok path.body) := by
  obtain ⟨workers, hplan⟩ := hc.plan
  obtain ⟨-, hpaths⟩ := UpgradePlan.exists_node_of_mem hplan
  obtain ⟨old, id, hget, hneeds, hderived⟩ := hpaths path hpath
  obtain ⟨version, hlabel, hbefore⟩ := Derivation.exists_label_of_needsPath hneeds
  obtain ⟨next, hnext, htype, hsource, htarget, hbodies⟩ := Derivation.path_eq_ok hderived
  obtain ⟨next', hnext', hnextNode⟩ := hc.graph.exists_successor hget hlabel hbefore
  obtain rfl := Option.some.inj (Except.ok.inj (hnext.symm.trans hnext'))
  obtain ⟨-, hold⟩ := hc.graph.nodeAt_label hget hlabel
  have hv : version + 1 < c.schema.chain.size := by
    rw [hc.graph.current_eq] at hbefore
    omega
  refine ⟨version, old, next, htype, ?_, htarget, hlabel, hv, hold, hnextNode, hbodies⟩
  rw [hsource, Node.identity, hlabel]

theorem references_eq (hc : c.Sound) : c.plan.references = CodeRef.registry c.chain := by
  obtain ⟨workers, hplan⟩ := hc.plan
  exact (UpgradePlan.exists_node_of_mem hplan).1

/-- What is behind a record path: the two sides of a version. -/
theorem exists_crossing (hc : c.Sound) {path : UpgradePath} (hpath : path ∈ c.plan.paths)
    {operations : List FieldOperation} {assignments : List Assignment}
    (hbody : path.body = .record operations assignments) :
    ∃ version old next, path.type = old.name ∧ path.source = ⟨old.name, some version⟩ ∧
      path.target = next.identity ∧ Nonempty (Crossing c.schema c.graph version old next) ∧
        (c.schema.derivation c.graph).record old next = .ok (.record operations assignments) ∧
          old.version = some version ∧ c.plan.references = CodeRef.registry c.chain := by
  obtain ⟨version, old, next, htype, hsource, htarget, hlabel, hv, hold, hnext, hbodies⟩ :=
    exists_sides hc hpath
  rw [hbody] at hbodies
  rcases hbodies with ⟨fields, hkind, hrecord⟩ | ⟨members, -, hunion⟩
  · obtain ⟨-, -, hrep⟩ := hc.graph.represents_of_nodeAt hold
    have hbase := Replayed.base_of_describes (hkind ▸ hrep.kind)
    exact ⟨version, old, next, htype, hsource, htarget,
      Crossing.exists_crossing hc.graph hv hbase hold hnext, hrecord, hlabel, references_eq hc⟩
  · obtain ⟨arms, -, h⟩ := bind_eq_ok.mp hunion
    cases h

/-- **Derived record upgrades mean what the transformations do.** A record path leads from the node
of its type at a version to the one at the next version. On every old instance, with one value for
each field of the old layout, and for every interpretation of code and nested upgrades, the
assignments yield the fields that executing the transformations of the next version yields. -/
theorem evalAssignments_eq_run {config : Config} {workers : Nat}
    (h : config.compile workers = .ok c) {path : UpgradePath} (hpath : path ∈ c.plan.paths)
    {operations : List FieldOperation} {assignments : List Assignment}
    (hbody : path.body = .record operations assignments) :
    ∃ version layout old next, c.graph.nodeAt path.type version = .ok old ∧
      c.graph.nodeAt path.type (version + 1) = .ok next ∧
      path.source = ⟨path.type, some version⟩ ∧ path.source = old.identity ∧
      path.target = next.identity ∧ c.history.layout? version path.type = some layout ∧
      ∀ {α : Type} (interpretation : Interpretation α) (record : OrderedMap α),
        (∀ field, field ∈ record ↔ field ∈ layout) → ∃ fields,
          Execution.run interpretation c.graph version
            (c.transformations (version + 1) path.type) layout record = some fields ∧
          evalAssignments interpretation c.plan.references record assignments = some fields := by
  have hc := sound_of_compile h
  obtain ⟨version, old, next, htype, hsource, htarget, ⟨x⟩, hrecord, hlabel, hreferences⟩ :=
    exists_crossing hc hpath hbody
  rw [htype, hsource, hreferences]
  refine ⟨version, x.before, old, next, x.oldNode, x.nextNode, rfl,
    by rw [Node.identity, hlabel], htarget, x.beforeLayout, ?_⟩
  intro α interpretation record hfields
  obtain ⟨log, carried, hreplay, hassign⟩ := Derivation.record_eq_ok hrecord
  rw [hlabel, Option.getD_some] at hreplay hassign
  have hsteps : ((c.history.snapshot? (version + 1) old.name).map
      Snapshot.transformations).getD [] = x.steps := x.transformations_snapshot hc.schema
  have hreplay : (c.schema.derivation c.graph).replay old (version + 1) x.steps
      (Derivation.initial old) = .ok (log, carried) := hsteps ▸ hreplay
  obtain ⟨start, hstart, hrelated⟩ := x.start_holds interpretation hfields
  obtain ⟨last, hlast, hholds⟩ :=
    x.steps_hold hc.schema hfields (fun _ hstep => hstep) hrelated hreplay
  obtain ⟨changed, hchanged, hmem⟩ := exists_changedAt hc (Nat.lt_of_succ_lt x.lt_size)
  -- field by field, execution and assignment end with one value
  have hvalues := (forall₂_of_common hholds.flip hassign).imp fun held assignment hboth => show
    ∃ out, (Execution.finish interpretation c.graph version held.2).map (Prod.mk held.1) =
        some out ∧ (assignment.value.eval interpretation (CodeRef.registry c.chain) record).map
          (Prod.mk assignment.field) = some out by
      obtain ⟨entry, -, ⟨hname, hheld⟩, declared, hdeclared, log, hassigned⟩ := hboth
      obtain ⟨hfield, value, hfinish, heval⟩ :=
        x.eval_of_assign hc.schema hc.graph hchanged hmem hheld hdeclared hassigned
      have heval : assignment.value.eval interpretation (CodeRef.registry c.chain) record =
        some value := heval
      exact ⟨_, by rw [hfinish]; rfl, by rw [heval, hfield, ← hname]; rfl⟩
  obtain ⟨fields, hexecuted, hevaluated⟩ := exists_mapM_eq_some hvalues
  refine ⟨fields, ?_, hevaluated⟩
  unfold Execution.run
  rw [hstart, transformations_eq x]
  simp only [Option.bind_eq_bind, Option.bind_some]
  rw [hlast]
  exact hexecuted

/-- Numbers as values: code adds up what it reads, and a nested upgrade adds 100. -/
def sampleInterpretation : Interpretation Nat where
  create _ fields := (fields.map Prod.snd).sum
  convert _ fields value := value + (fields.map Prod.snd).sum
  step _ _ value := value + 100
  within _ upgrade := upgrade

/-- The converter reads the old value of `a`, which is upgraded afterwards. -/
theorem evalAssignments_eq_run_sample : ∃ c layout, Config.sample.compile 1 = .ok c ∧
    UpgradePath.sample ∈ c.plan.paths ∧ c.history.layout? 0 "B" = some layout ∧
      Execution.run sampleInterpretation c.graph 0 (c.transformations 1 "B") layout
        (.ofList [("a", 5), ("n", 7)]) = some [("m", 12), ("a", 105)] := by
  obtain ⟨c, layout, hc, -, -, hlayout, hkeys, hreferences, hpath⟩ := Config.exists_compile_sample
  obtain ⟨version, layout', -, -, -, -, hsource, -, -, hlayout', hmeans⟩ :=
    evalAssignments_eq_run hc hpath rfl
  obtain rfl : 0 = version := Option.some.inj (Identity.mk.inj hsource).2
  obtain rfl := Option.some.inj (hlayout.symm.trans hlayout')
  have hfields : ∀ field, field ∈ (.ofList [("a", 5), ("n", 7)] : OrderedMap Nat) ↔
      field ∈ layout := by
    intro field
    rw [OrderedMap.mem_iff_mem_keys, OrderedMap.mem_iff_mem_keys, hkeys]
    rfl
  obtain ⟨fields, hrun, heval⟩ := hmeans sampleInterpretation _ hfields
  rw [hreferences] at heval
  obtain rfl := Option.some.inj heval
  exact ⟨c, layout, hc, hpath, hlayout, hrun⟩

end Compilation

end SchemaEvolution

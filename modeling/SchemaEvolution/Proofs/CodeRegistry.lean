import SchemaEvolution.Proofs.FirstUses
import SchemaEvolution.Proofs.OperationLog
import SchemaEvolution.Proofs.PathReferences

/-!
# The registered code is that of the transformations

A plan lists the code that its paths call, and paths refer to code by its place in that list. The
list is collected from the transformations alone, before there are any nodes or paths. Still nothing
is missing and nothing is left over: a place in a path always stands for the code of the
transformation that it comes from, and since a transformed type has a node just before the
transformation, all listed code is called by some path.

## Main definitions

* `UpgradePlan.Denotes`: a place in the plan is that of the code of a transformation
* `codeTrail`: the transformations whose code brought in the value of a field
* `CallsCodeOf`: what the log and the assignments of a record call

## Main results

* `CodeRef.listsFirstUses_registry`: code is listed in the order of its first use
* `Compilation.codes_of_holdsAfter`: a value calls the code of the transformations of its field
* `Compilation.exists_record_of_step`: a transformation belongs to a record path
* `Compilation.registry_exact`: the registered code is that of the transformations
-/

namespace SchemaEvolution

/-- The code that the transformations of a chain call, in order and with repetitions. -/
def Chain.codes (chain : Chain) : List CodeRef :=
  chain.versions.flatMap fun version =>
    version.transformations.filterMap fun step => step.change.code?

/-- **Code is listed in the order of its first use.** -/
theorem CodeRef.listsFirstUses_registry (chain : Chain) :
    ListsFirstUses chain.codes (CodeRef.registry chain) :=
  .foldl _

/-- **A place in the plan is that of the code of a transformation.** -/
def UpgradePlan.Denotes (plan : UpgradePlan) (id : RefId) (step : Step) : Prop :=
  ∃ code, step.change.code? = some code ∧ plan.reference? id = some code

/-- **The transformations whose code brought in the value of a field**, the last one first. The
transformations of its type are given from the last one back: a field is followed to its earlier
names until it was inserted. -/
def codeTrail : List Step → String → List Step
  | [], _ => []
  | ⟨_, .move source target _⟩ :: earlier, field =>
    codeTrail earlier (if field = target then source else field)
  | ⟨_, .remove _⟩ :: earlier, field => codeTrail earlier field
  | step@⟨_, .insert inserted ..⟩ :: earlier, field =>
    if field = inserted then [step] else codeTrail earlier field
  | step@⟨_, .convert converted ..⟩ :: earlier, field =>
    if field = converted then step :: codeTrail earlier field else codeTrail earlier field

/-- A transformation that does not touch a field leaves no trail there. -/
theorem codeTrail_cons_of_not_touched {step : Step} {earlier : List Step} {field : String}
    (h : field ∉ step.change.touched) : codeTrail (step :: earlier) field =
      codeTrail earlier field := by
  obtain ⟨type, change⟩ := step
  cases change with
  | move source target index =>
    simp only [FieldChange.touched, List.mem_cons, not_or] at h
    rw [codeTrail, if_neg h.2.1]
  | remove removed => rfl
  | insert inserted introduced code names index =>
    rw [codeTrail, if_neg (by simpa [FieldChange.touched] using h)]
  | convert converted introduced code names =>
    rw [codeTrail, if_neg (by simpa [FieldChange.touched] using h)]

/-- **What the log and the assignments of a record call**, where `steps` are the transformations of
its type behind the version of the old node. -/
structure CallsCodeOf (plan : UpgradePlan) (steps : List Step) (operations : List FieldOperation)
    (assignments : List Assignment) : Prop where
  /-- The log names the code of the transformations, each in its entry, and no other code. -/
  log : ∃ changes rest, operations = changes ++ rest ∧
    List.Forall₂ (fun step entry => step.change.LoggedAs plan.references entry) steps changes ∧
      ∀ entry ∈ rest, entry.codes = []
  /-- A value calls the code of the transformations that brought it in. -/
  values : ∀ assignment ∈ assignments, List.Forall₂ plan.Denotes assignment.value.codes
    (codeTrail steps.reverse assignment.field)

/-- An entry of the log with code names it by its place. -/
theorem FieldChange.LoggedAs.exists_of_code? {references : List CodeRef}
    {change : FieldChange TypeRef CodeRef} {entry : FieldOperation} {code : CodeRef}
    (h : change.LoggedAs references entry) (hcode : change.code? = some code) :
    ∃ field id, references[id]? = some code ∧
      (entry = .insert field id ∨ entry = .convert field id) := by
  cases h with
  | move => cases hcode
  | remove => cases hcode
  | @insert field type code' names index id hid =>
    obtain rfl := Option.some.inj hcode
    exact ⟨field, id, hid, .inl rfl⟩
  | @convert field type code' names id hid =>
    obtain rfl := Option.some.inj hcode
    exact ⟨field, id, hid, .inr rfl⟩

/-- The log of an assignment names no code. -/
theorem Assignment.codes_of_operation? {assignment : Assignment} {entry : FieldOperation}
    (h : assignment.operation? = some entry) : entry.codes = [] := by
  unfold operation? at h
  split at h
  · obtain ⟨-, h⟩ := Option.ite_none_right_eq_some.mp h
    obtain rfl := Option.some.inj h
    rfl
  · obtain rfl := Option.some.inj h
    rfl
  · cases h
  · cases h

namespace Compilation

variable {c : Compilation} {version : Nat} {old next : Node}

/-- **A value calls the code of the transformations that brought it in.** -/
theorem codes_of_holdsAfter {steps : List Step} {field : String} {value : ValueExpr} {id : NodeId}
    (h : c.HoldsAfter version old steps field value id) :
    List.Forall₂ c.plan.Denotes value.codes (codeTrail steps.reverse field) := by
  -- the trail is followed from the last step back
  induction h with
  | start => exact .nil
  | stay _ hfield ih =>
    rw [List.reverse_concat, codeTrail_cons_of_not_touched hfield]
    exact ih
  | moved _ ih =>
    rw [List.reverse_concat, codeTrail, if_pos rfl]
    exact ih
  | created hcode =>
    rw [List.reverse_concat, codeTrail, if_pos rfl]
    exact .cons ⟨_, rfl, hcode⟩ .nil
  | converted _ hcode _ _ ih =>
    rw [List.reverse_concat, codeTrail, if_pos rfl]
    exact .cons ⟨_, rfl, hcode⟩ ih

section Sound

variable (hc : c.Sound)

include hc

/-- **A record path calls the code of the transformations of its type**, behind the version that it
starts at. -/
theorem callsCodeOf {path : UpgradePath} (hpath : path ∈ c.plan.paths)
    {operations : List FieldOperation} {assignments : List Assignment}
    (hbody : path.body = .record operations assignments) :
    ∃ version, path.source = ⟨path.type, some version⟩ ∧
      CallsCodeOf c.plan (c.transformations (version + 1) path.type) operations assignments := by
  obtain ⟨version, old, next, htype, hsource, -, ⟨x⟩, hrecord, hlabel, hreferences⟩ :=
    exists_crossing hc hpath hbody
  obtain ⟨changes, hlog, hlogged⟩ := (x.accountsFor hc.schema hc.graph hlabel hrecord).log
  rw [htype]
  refine ⟨version, hsource, ⟨changes, _, hlog, ?_, fun entry hentry => ?_⟩, ?_⟩
  · rw [transformations_eq x, hreferences]
    exact hlogged
  · obtain ⟨assignment, -, hentry⟩ := List.mem_filterMap.mp hentry
    exact Assignment.codes_of_operation? hentry
  · obtain ⟨log, carried, outs, hreplay, -, rfl, hassigned⟩ :=
      x.exists_assigned hc.schema hc.graph hlabel hrecord
    intro assignment hassignment
    obtain ⟨out, hout, rfl⟩ := List.mem_map.mp hassignment
    obtain ⟨field, -, value, hmem, -, -, hassign⟩ := exists_left_of_forall₂ hassigned hout
    have hholds := holdsAfter_replay hc hreferences hreplay (fun _ => holdsAfter_initial x) _ hmem
    rw [List.nil_append, ← transformations_eq x] at hholds
    rw [(Derivation.codes_of_assign hassign).1, Derivation.field_of_assign hassign]
    exact codes_of_holdsAfter hholds

/-- **A transformation belongs to a record path**: that of its type from the version before. -/
theorem exists_record_of_step {declared : Version} {step : Step}
    (hversion : c.chain.get? (version + 1) = some declared)
    (hstep : step ∈ declared.transformations) :
    ∃ path ∈ c.plan.paths, path.type = step.type ∧ path.source = ⟨step.type, some version⟩ ∧
      ∃ operations assignments, path.body = .record operations assignments := by
  have hv : version + 1 < c.schema.chain.size := (List.getElem?_eq_some_iff.mp hversion).1
  obtain ⟨stage, hstage⟩ := hc.schema.exists_stage hv
  have hsteps := hc.schema.transformations_stage hstage hversion
  have hbase := (hc.schema.checked_transformation hstage (hsteps ▸ hstep)).1
  have haffected : c.schema.Affected version step.type :=
    Replayed.affected_of_targets ⟨stage, hstage, step, hsteps ▸ hstep, rfl⟩
  obtain ⟨path, hpath, htype, hsource⟩ := exists_path_of_affected hc (.inl hbase) hv haffected
  refine ⟨path, hpath, htype, hsource, ?_⟩
  cases hbody : path.body with
  | record operations assignments => exact ⟨operations, assignments, rfl⟩
  | union arms =>
    obtain ⟨version', old, next, members, hsource', -, hkind, hold, -⟩ :=
      exists_union hc hpath hbody
    have hname : step.type = old.name := (Identity.mk.inj (hsource.symm.trans hsource')).1
    obtain ⟨-, -, hrep⟩ := hc.graph.represents_of_nodeAt hold
    obtain ⟨_, fields, -, hfields, -⟩ :=
      hrep.kind.exists_base (Replayed.entry_declared_iff.mpr (hname ▸ hbase))
    cases hkind.symm.trans hfields

end Sound

/-- **The registered code is that of the transformations.** A plan lists the code of all
transformations, each once and in the order of its first use. Every place of code in a record path
is that of the code of the transformation that it comes from; a union path calls no code. All listed
code is called in an insertion or a conversion of some path. -/
theorem registry_exact {config : Config} {workers : Nat} (h : config.compile workers = .ok c) :
    ListsFirstUses c.chain.codes c.plan.references ∧
    (∀ path ∈ c.plan.paths, ∀ operations assignments, path.body = .record operations assignments →
      ∃ version, path.source = ⟨path.type, some version⟩ ∧
        CallsCodeOf c.plan (c.transformations (version + 1) path.type) operations assignments) ∧
    ∀ id < c.plan.references.length, ∃ path ∈ c.plan.paths, ∃ operations assignments,
      path.body = .record operations assignments ∧
        ∃ field, .insert field id ∈ operations ∨ .convert field id ∈ operations := by
  have hc := sound_of_compile h
  have hregistry : ListsFirstUses c.chain.codes c.plan.references :=
    references_eq hc ▸ CodeRef.listsFirstUses_registry c.chain
  refine ⟨hregistry, fun path hpath operations assignments hbody => callsCodeOf hc hpath hbody,
    fun id hid => ?_⟩
  have hcode := hregistry.mem_iff.mp (List.getElem_mem hid)
  simp only [Chain.codes, List.mem_flatMap, List.mem_filterMap] at hcode
  obtain ⟨declared, hdeclared, step, hstep, hcode⟩ := hcode
  obtain ⟨place, hversion⟩ := List.getElem?_of_mem hdeclared
  cases place with
  | zero =>
    rw [hc.schema.chain.root hversion] at hstep
    cases hstep
  | succ version =>
    obtain ⟨path, hpath, htype, hsource, operations, assignments, hbody⟩ :=
      exists_record_of_step hc hversion hstep
    obtain ⟨version', hsource', hcalls⟩ := callsCodeOf hc hpath hbody
    obtain rfl := Option.some.inj (Identity.mk.inj (hsource.symm.trans hsource')).2
    obtain ⟨changes, rest, rfl, hlogged, -⟩ := hcalls.log
    have hmem : step ∈ c.transformations (version + 1) path.type := by
      rw [transformations, Chain.get?, hversion, htype]
      exact List.mem_filter.mpr ⟨hstep, beq_self_eq_true _⟩
    obtain ⟨entry, hentry, hlog⟩ := exists_right_of_forall₂ hlogged hmem
    obtain ⟨field, id', hid', hcases⟩ := hlog.exists_of_code? hcode
    obtain rfl : id = id' := (List.getElem?_inj hid hregistry.nodup).mp
      ((List.getElem?_eq_getElem hid).trans hid'.symm)
    refine ⟨path, hpath, _, assignments, hbody, field, ?_⟩
    rcases hcases with rfl | rfl
    · exact .inl (List.mem_append_left rest hentry)
    · exact .inr (List.mem_append_left rest hentry)

/-- The value of `m` in the upgrade of `B` calls the code of the one conversion of `n`. -/
theorem registry_exact_sample : ∃ c step, Config.sample.compile 1 = .ok c ∧
    ListsFirstUses c.chain.codes [.construct "c.Y", .construct "c.N"] ∧
      codeTrail (c.transformations 1 "B").reverse "m" = [step] ∧
        step.change.code? = some (.construct "c.N") ∧ ∃ path ∈ c.plan.paths,
          ∃ operations assignments, path.body = .record operations assignments ∧
            ∃ field, .insert field 0 ∈ operations ∨ .convert field 0 ∈ operations := by
  obtain ⟨c, -, hc, -, -, -, -, hreferences, hpath⟩ := Config.exists_compile_sample
  obtain ⟨hlists, hcalls, hcalled⟩ := registry_exact hc
  obtain ⟨version, hsource, hcalls⟩ := hcalls _ hpath _ _ rfl
  obtain rfl : 0 = version := Option.some.inj (Identity.mk.inj hsource).2
  obtain ⟨step, rest, ⟨code, hstep, hcode⟩, hrest, htrail⟩ :=
    List.forall₂_cons_left_iff.mp (hcalls.values _ List.mem_cons_self)
  obtain rfl := List.forall₂_nil_left_iff.mp hrest
  rw [UpgradePlan.reference?, hreferences] at hcode
  obtain rfl := Option.some.inj hcode
  refine ⟨c, step, hc, hreferences ▸ hlists, htrail, hstep, hcalled 0 ?_⟩
  rw [hreferences]
  exact Nat.zero_lt_two

end Compilation

end SchemaEvolution

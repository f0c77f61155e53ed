import SchemaEvolution.Proofs.Ledger
import SchemaEvolution.Proofs.NestedUpgrades

/-!
# The log of a record path

A record path says twice what becomes of the old fields: its log lists what happened, and its
assignments say how the values are computed. Both tell the same: performed on the old fields, the
log yields the assigned values. Hence no old value is assigned twice, and one is left out only where
a field is removed that holds it.

## Main definitions

* `FieldChange.LoggedAs`, `Assignment.operation?`: the entries of changes and of assignments
* `Ledger.ofCarried`, `Ledger.ofAssignments`: the ledgers of carried and of assigned values
* `Ledger.Logs`: what is logged of an assignment
* `AccountsFor`: what the log and the assignments of a record say of each other

## Main results

* `Derivation.perform_operation`: performing the entry of a change is making the change
* `Derivation.logs_of_assign`: performing the entry of an assignment is making the assignment
* `Compilation.accounts_record`: record paths account for every field
-/

namespace SchemaEvolution

universe u

/-! ## The log of the changes -/

/-- **The entry of a change in the log**, with the place of its code among the references. -/
inductive FieldChange.LoggedAs (references : List CodeRef) :
    FieldChange TypeRef CodeRef → FieldOperation → Prop
  | move {source target : String} {index : Option Nat} :
      LoggedAs references (.move source target index) (.move source target)
  | remove {field : String} : LoggedAs references (.remove field) (.remove field)
  | insert {field : String} {type : TypeRef} {code : CodeRef} {names : List String}
      {index : Option Nat} {id : RefId} (hcode : references[id]? = some code) :
      LoggedAs references (.insert field type code names index) (.insert field id)
  | convert {field : String} {type : TypeRef} {code : CodeRef} {names : List String} {id : RefId}
      (hcode : references[id]? = some code) :
      LoggedAs references (.convert field type code names) (.convert field id)

/-- The ledger of carried values. -/
def Ledger.ofCarried (carried : OrderedMap Carried) : Ledger := fun name =>
  (carried.get? name).map fun held => held.value.logged

/-- **How many fields there are after a change**: one more if it is an insertion, one less if it is
a removal. -/
theorem FieldChange.size_apply {τ κ : Type} {α : Type u} {start : τ → κ → List String → α}
    {rework : τ → κ → List String → α → α} {site : FieldSite} {change : FieldChange τ κ}
    {fields out : OrderedMap α} (h : change.apply start rework site fields = .ok out) :
    out.size + (if change.kind = .remove then 1 else 0) =
      fields.size + (if change.kind = .insert then 1 else 0) := by
  cases change with
  | move source target index =>
    rw [apply_move] at h
    split at h
    · cases h
    · rename_i slot value hslot
      obtain ⟨hfresh, -, rfl⟩ := place_eq_ok h
      have hmem := List.mem_map_of_mem (f := Prod.fst) (OrderedMap.mem_of_slotFrom hslot)
      rw [OrderedMap.size_insertAt, OrderedMap.size_erase_of_mem hmem]
      rfl
  | insert field type code context index =>
    obtain ⟨hfresh, -, rfl⟩ := place_eq_ok h
    exact OrderedMap.size_insertAt _
  | remove field =>
    rw [apply_remove] at h
    split at h
    · obtain rfl := Except.ok.inj h
      exact OrderedMap.size_erase_of_mem ‹_›
    · cases h
  | convert field type code context =>
    rw [apply_convert] at h
    split at h
    · cases h
    · obtain rfl := Except.ok.inj h
      exact OrderedMap.size_replace

namespace Ledger

variable (carried : OrderedMap Carried)

theorem ofCarried_erase (key : String) :
    ofCarried (carried.erase key) = Function.update (ofCarried carried) key none := by
  funext name
  rw [ofCarried, OrderedMap.get?_erase, Function.update_apply]
  split <;> rfl

theorem ofCarried_insertAt {place : Nat} {key : String} {held : Carried} (fresh : key ∉ carried) :
    ofCarried (carried.insertAt place key held fresh) =
      Function.update (ofCarried carried) key (some held.value.logged) := by
  funext name
  rw [ofCarried, OrderedMap.get?_insertAt, Function.update_apply]
  split <;> rfl

theorem ofCarried_replace {key : String} {before held : Carried}
    (h : carried.get? key = some before) :
    ofCarried (carried.replace key held) =
      Function.update (ofCarried carried) key (some held.value.logged) := by
  funext name
  rw [ofCarried, OrderedMap.get?_replace, Function.update_apply]
  split
  · subst name
    rw [h]
    rfl
  · rfl

theorem ofCarried_of_fresh {key : String} (h : key ∉ carried) : ofCarried carried key = none := by
  rw [ofCarried, OrderedMap.get?_eq_none h, Option.map_none]

end Ledger

namespace Derivation

variable {source : Derivation} {old : Node} {version : Nat}

/-- **Performing the entry of a change is making the change**, on what the log tells of the
values. -/
theorem perform_operation {change : ResolvedChange} {site : FieldSite}
    {carried out : OrderedMap Carried} (h : change.apply start rework site carried = .ok out) :
    (operation change).perform (Ledger.ofCarried carried) = some (Ledger.ofCarried out) := by
  cases change with
  | move source target index =>
    rw [FieldChange.apply_move] at h
    split at h
    · cases h
    · rename_i slot value hslot
      obtain ⟨hfresh, -, rfl⟩ := FieldChange.place_eq_ok h
      have hget := OrderedMap.get?_eq_some_iff.mpr (OrderedMap.mem_of_slotFrom hslot)
      refine Option.bind_eq_some_iff.mpr ⟨value.value.logged, ?_, ?_⟩
      · rw [Ledger.ofCarried, hget, Option.map_some]
      · rw [Ledger.ofCarried_insertAt, ← Ledger.ofCarried_erase]
        exact if_pos (Ledger.ofCarried_of_fresh _ hfresh)
  | insert field type code context index =>
    obtain ⟨hfresh, -, rfl⟩ := FieldChange.place_eq_ok h
    rw [Ledger.ofCarried_insertAt]
    exact if_pos (Ledger.ofCarried_of_fresh _ hfresh)
  | remove field =>
    rw [FieldChange.apply_remove] at h
    split at h
    · rename_i hmem
      obtain rfl := Except.ok.inj h
      obtain ⟨value, hvalue⟩ := OrderedMap.exists_get?_of_mem hmem
      rw [Ledger.ofCarried_erase]
      exact Option.map_eq_some_iff.mpr
        ⟨value.value.logged, by rw [Ledger.ofCarried, hvalue]; rfl, rfl⟩
    · cases h
  | convert field type code context =>
    rw [FieldChange.apply_convert] at h
    split at h
    · cases h
    · rename_i value hvalue
      obtain rfl := Except.ok.inj h
      rw [Ledger.ofCarried_replace carried hvalue]
      exact Option.map_eq_some_iff.mpr
        ⟨value.value.logged, by rw [Ledger.ofCarried, hvalue]; rfl, rfl⟩

/-- The entry of a resolved change is that of the change, and both are of one kind. -/
theorem loggedAs_operation {declared : FieldChange TypeRef CodeRef} {change : ResolvedChange}
    (h : source.resolveChange old version declared = .ok change) :
    declared.LoggedAs source.references (operation change) ∧ change.kind = declared.kind := by
  cases declared with
  | move from' to' index =>
    obtain rfl := Except.ok.inj h
    exact ⟨.move, rfl⟩
  | remove field =>
    obtain rfl := Except.ok.inj h
    exact ⟨.remove, rfl⟩
  | insert field type code names index =>
    obtain ⟨out, hresolve, rfl⟩ := FieldChange.traverse_insert_eq_ok h
    exact ⟨.insert (getElem?_of_reference (resolve_eq_ok_iff.mp hresolve).2.1), rfl⟩
  | convert field type code names =>
    obtain ⟨out, hresolve, rfl⟩ := FieldChange.traverse_convert_eq_ok h
    exact ⟨.convert (getElem?_of_reference (resolve_eq_ok_iff.mp hresolve).2.1), rfl⟩

/-- **The log of the changes**: one entry for each, in order, and performing them yields the values
that are carried in the end, of which there are as many as insertions and removals leave. -/
theorem logged_replay {steps : List Step} {carried out : OrderedMap Carried}
    {log : List FieldOperation} (h : source.replay old version steps carried = .ok (log, out)) :
    List.Forall₂ (fun step entry => step.change.LoggedAs source.references entry) steps log ∧
      (Ledger.ofCarried carried).replay log = some (Ledger.ofCarried out) ∧
      out.size + steps.countP (fun step => step.change.kind = .remove) =
        carried.size + steps.countP (fun step => step.change.kind = .insert) := by
  induction steps generalizing carried log with
  | nil =>
    obtain ⟨rfl, rfl⟩ := Prod.mk.inj (Except.ok.inj h)
    exact ⟨.nil, rfl, rfl⟩
  | cons step rest ih =>
    obtain ⟨change, middle, later, hchange, happly, hlater, rfl⟩ := replay_cons_eq_ok h
    obtain ⟨hlogged, hkind⟩ := loggedAs_operation hchange
    obtain ⟨hlog, hreplay, hsize⟩ := ih hlater
    refine ⟨.cons hlogged hlog,
      Ledger.replay_cons_eq_some_iff.mpr ⟨_, perform_operation happly, hreplay⟩, ?_⟩
    have hstep := FieldChange.size_apply happly
    rw [hkind] at hstep
    simp only [List.countP_cons, decide_eq_true_eq]
    omega

end Derivation

/-! ## The log of the assignments -/

/-- **The entry of an assignment in the log**: a field that keeps its old value is carried, a field
whose value is upgraded has the steps of the upgrade, and there is no other entry. -/
def Assignment.operation? (assignment : Assignment) : Option FieldOperation :=
  match assignment.value with
  | .oldField field =>
    if field = assignment.field then some (.carry assignment.field) else none
  | .upgrade _ _ steps _ => some (.upgrade assignment.field steps)
  | .convert .. | .create .. => none

/-- The ledger of assigned values. -/
def Ledger.ofAssignments (assignments : List Assignment) : Ledger := fun name =>
  (assignments.map fun assignment => (assignment.field, assignment.value.logged)).lookup name

theorem Derivation.field_of_assign {source : Derivation} {old next : Node} {version : Nat}
    {field : String} {carried : Carried} {declared : NodeField}
    {out : List FieldOperation × Assignment}
    (h : source.assign old next version field carried declared = .ok out) :
    out.2.field = field := by
  obtain ⟨-, ⟨-, hout, -⟩ | ⟨-, first, steps, -, hout, -⟩⟩ := cases_of_assign h
  · exact congrArg Assignment.field hout
  · exact congrArg Assignment.field hout

/-- **What is logged of an assignment**, where a ledger tells of the values before it: the entry of
the assignment, if any, which puts what is assigned in the place of what the field holds. -/
structure Ledger.Logs (fields : Ledger) (out : List FieldOperation × Assignment) : Prop where
  entries : out.1 = out.2.operation?.toList
  performed : ∀ {now : Ledger}, now out.2.field = fields out.2.field →
    now.replay out.1 = some (Function.update now out.2.field (some out.2.value.logged))

/-- **Performing the entry of an assignment is making the assignment**, of a carried value that has
no upgrades in it. -/
theorem Derivation.logs_of_assign {source : Derivation} {old next : Node} {version : Nat}
    {field : String} {carried : Carried} {declared : NodeField}
    {out : List FieldOperation × Assignment}
    (h : source.assign old next version field carried declared = .ok out) {fields : Ledger}
    (hheld : fields field = some carried.value.logged) (hcarried : carried.value.nested = []) :
    fields.Logs out := by
  obtain ⟨log, assignment⟩ := out
  obtain ⟨-, ⟨-, rfl, rfl⟩ | ⟨-, first, steps, -, rfl, rfl⟩⟩ := cases_of_assign h
  · refine ⟨?_, fun {now} hnow => ?_⟩
    · cases hvalue : carried.value with
      | oldField name =>
        simp only [ValueExpr.oldField.injEq, Assignment.operation?]
        split <;> rfl
      | convert converter context input => rfl
      | create initializer context => rfl
      | upgrade wrapper source steps input =>
        rw [hvalue] at hcarried
        cases hcarried
    · have hfield : now field = some carried.value.logged := hnow.trans hheld
      have hkept : Function.update now field (some carried.value.logged) = now :=
        Function.update_eq_self_iff.mpr hfield.symm
      rw [hkept]
      split
      · rename_i hvalue
        rw [hvalue] at hfield
        exact Ledger.replay_cons_eq_some_iff.mpr ⟨now, if_pos hfield, rfl⟩
      · rfl
  · refine ⟨rfl, fun hnow => Ledger.replay_cons_eq_some_iff.mpr ⟨_, ?_, rfl⟩⟩
    exact Option.map_eq_some_iff.mpr ⟨_, hnow.trans hheld, rfl⟩

theorem Ledger.isSome_ofAssignments_iff {assignments : List Assignment} {name : String} :
    (ofAssignments assignments name).isSome ↔ name ∈ assignments.map Assignment.field := by
  rw [ofAssignments, lookup_isSome_iff, List.map_map]
  rfl

section Logs

variable {outs : List (List FieldOperation × Assignment)} {fields : Ledger}

theorem Ledger.flatMap_entries (h : ∀ out ∈ outs, fields.Logs out) :
    outs.flatMap Prod.fst = (outs.map Prod.snd).filterMap Assignment.operation? := by
  rw [List.filterMap_eq_flatMap_toList, List.flatMap_map]
  exact List.flatMap_congr fun out hout => (h out hout).entries

variable (hdistinct : ((outs.map Prod.snd).map Assignment.field).Nodup)

include hdistinct

/-- **Performing the log of all assignments** puts the assigned values over the ones before. -/
theorem Ledger.replay_assigned (h : ∀ out ∈ outs, fields.Logs out) :
    fields.replay (outs.flatMap Prod.fst) =
      some fun name => (ofAssignments (outs.map Prod.snd) name).or (fields name) := by
  induction outs generalizing fields with
  | nil => rfl
  | cons out rest ih =>
    obtain ⟨hfresh, hdistinct⟩ := List.nodup_cons.mp hdistinct
    rw [List.flatMap_cons]
    refine replay_append_eq_some_iff.mpr ⟨_, (h out List.mem_cons_self).performed rfl, ?_⟩
    rw [ih hdistinct]
    · congr 1
      funext name
      by_cases hname : name = out.2.field
      · have hnone : ofAssignments (rest.map Prod.snd) name = none := by
          rw [← Option.not_isSome_iff_eq_none, isSome_ofAssignments_iff, hname]
          exact hfresh
        rw [hnone, List.map_cons, ofAssignments, List.map_cons, lookup_cons_eq, if_pos hname, hname,
          Function.update_self]
        rfl
      · rw [List.map_cons, ofAssignments, ofAssignments, List.map_cons, lookup_cons_eq,
          if_neg hname, Function.update_of_ne hname]
    · intro later hlater
      -- the field of a later assignment still holds what it held before
      have hother : later.2.field ≠ out.2.field := fun hsame =>
        hfresh (List.mem_map.mpr ⟨later.2, List.mem_map_of_mem hlater, hsame⟩)
      have hlogs := h later (List.mem_cons_of_mem _ hlater)
      refine ⟨hlogs.entries, fun hnow => hlogs.performed ?_⟩
      rwa [Function.update_of_ne hother] at hnow

/-- Where all fields are assigned, only the assigned values remain. -/
theorem Ledger.replay_covered (h : ∀ out ∈ outs, fields.Logs out)
    (hcovered : ∀ name, name ∉ (outs.map Prod.snd).map Assignment.field → fields name = none) :
    fields.replay (outs.flatMap Prod.fst) = some (ofAssignments (outs.map Prod.snd)) := by
  rw [replay_assigned hdistinct h]
  congr 1
  funext name
  by_cases hname : name ∈ (outs.map Prod.snd).map Assignment.field
  · exact Option.or_of_isSome (isSome_ofAssignments_iff.mpr hname)
  · rw [hcovered name hname, Option.or_none]

end Logs

section OfAssignments

variable {assignments : List Assignment} {name origin : String}

variable (hdistinct : (assignments.map Assignment.field).Nodup)

include hdistinct

/-- The old values that are assigned, by the names of the new fields. -/
theorem Ledger.origin?_ofAssignments_iff : (ofAssignments assignments).origin? name = some origin ↔
    ∃ assignment ∈ assignments, assignment.field = name ∧
      assignment.value.origin? = some origin := by
  have hd : ((assignments.map fun assignment =>
      (assignment.field, assignment.value.logged)).map Prod.fst).Nodup := by
    rwa [List.map_map]
  rw [origin?, Option.bind_eq_some_iff]
  simp only [ofAssignments, lookup_eq_some_iff hd, List.mem_map, Prod.mk.injEq]
  constructor
  · rintro ⟨-, ⟨assignment, hassignment, hname, rfl⟩, horigin⟩
    exact ⟨assignment, hassignment, hname, assignment.value.origin?_logged ▸ horigin⟩
  · rintro ⟨assignment, hassignment, hname, horigin⟩
    exact ⟨_, ⟨assignment, hassignment, hname, rfl⟩, assignment.value.origin?_logged ▸ horigin⟩

/-- An old value is assigned when the ledger of the assigned values holds it. -/
theorem Ledger.mem_origins_iff :
    origin ∈ assignments.filterMap (fun assignment => assignment.value.origin?) ↔
      (ofAssignments assignments).Holds origin := by
  simp only [List.mem_filterMap, Holds, origin?_ofAssignments_iff hdistinct]
  constructor
  · rintro ⟨assignment, hassignment, horigin⟩
    exact ⟨_, assignment, hassignment, rfl, horigin⟩
  · rintro ⟨name, assignment, hassignment, -, horigin⟩
    exact ⟨assignment, hassignment, horigin⟩

/-- If no old value is under two names, then none is assigned twice. -/
theorem Ledger.Unshared.nodup_origins (h : (ofAssignments assignments).Unshared) :
    (assignments.filterMap fun assignment => assignment.value.origin?).Nodup := by
  refine List.pairwise_filterMap.mpr ((List.pairwise_map.mp hdistinct).imp_of_mem ?_)
  rintro first second hfirst hsecond hother origin horigin _ horigin' rfl
  exact hother (h ((origin?_ofAssignments_iff hdistinct).mpr ⟨first, hfirst, rfl, horigin⟩)
    ((origin?_ofAssignments_iff hdistinct).mpr ⟨second, hsecond, rfl, horigin'⟩))

end OfAssignments

/-- **What the log and the assignments of a record say of each other**, where `steps` are the
transformations of its type behind the version of the old node. -/
structure AccountsFor (references : List CodeRef) (steps : List Step) (old next : Node)
    (operations : List FieldOperation) (assignments : List Assignment) : Prop where
  /-- The new fields are assigned in order. -/
  names : assignments.map Assignment.field = next.fields.map NodeField.name
  /-- The log has the entries of the transformations, then those of the assignments. -/
  log : ∃ changes, operations = changes ++ assignments.filterMap Assignment.operation? ∧
    List.Forall₂ (fun step entry => step.change.LoggedAs references entry) steps changes
  /-- The log, performed on the old fields, yields the assigned values. -/
  replay : (Ledger.initial old).replay operations = some (Ledger.ofAssignments assignments)
  /-- No old value is assigned twice. -/
  once : (assignments.filterMap fun assignment => assignment.value.origin?).Nodup
  /-- An old value is assigned unless the log drops it. -/
  kept : ∀ origin, origin ∈ assignments.filterMap (fun assignment => assignment.value.origin?) ↔
    origin ∈ old.fields.map NodeField.name ∧ ¬ (Ledger.initial old).Drops operations origin
  /-- Insertions add a field, and removals take one away. -/
  count : assignments.length + steps.countP (fun step => step.change.kind = .remove) =
    old.fields.length + steps.countP (fun step => step.change.kind = .insert)

namespace Crossing

variable {replayed : Replayed} {graph : Graph} {v : Nat} {old next : Node}
  (x : Crossing replayed graph v old next)

include x

/-- The ledger of the values at the start is that of the old fields. -/
theorem ofCarried_initial :
    Ledger.ofCarried (Derivation.initial old) = Ledger.initial old := by
  funext name
  unfold Ledger.initial
  split
  · rename_i hname
    obtain ⟨field, hfield, rfl⟩ := List.mem_map.mp hname
    have hget : (Derivation.initial old).get? field.name =
        some ⟨.oldField field.name, field.type, field.target⟩ := by
      rw [OrderedMap.get?_eq_some_iff, x.entries_initial]
      exact List.mem_map_of_mem hfield
    rw [Ledger.ofCarried, hget]
    rfl
  · rename_i hname
    refine Ledger.ofCarried_of_fresh _ fun hmem => hname ?_
    rw [OrderedMap.mem_iff_mem_keys, OrderedMap.keys, x.entries_initial, List.map_map] at hmem
    exact hmem

variable (hr : replayed.Sound) (hg : Built replayed 0 graph.sketch)

include hr

/-- The carried values have the names of the next fields. -/
theorem keys_of_record (hversion : old.version = some v) {body : UpgradeBody}
    (h : (replayed.derivation graph).record old next = .ok body) {log : List FieldOperation}
    {carried : OrderedMap Carried} (hreplay : (replayed.derivation graph).replay old (v + 1) x.steps
      (Derivation.initial old) = .ok (log, carried)) :
    carried.keys = next.fields.map NodeField.name := by
  obtain ⟨log', carried', -, -, hreplay', hkeys, -, -⟩ := Derivation.exists_of_record h
  have hsteps : (((replayed.derivation graph).history.snapshot? (v + 1) old.name).map
      Snapshot.transformations).getD [] = x.steps := x.transformations_snapshot hr
  rw [hversion, Option.getD_some, hsteps] at hreplay'
  obtain ⟨-, rfl⟩ := Prod.mk.inj (Except.ok.inj (hreplay.symm.trans hreplay'))
  exact hkeys.symm

include hg

/-- **A record accounts for every field.** -/
theorem accountsFor (hversion : old.version = some v) {operations : List FieldOperation}
    {assignments : List Assignment}
    (h : (replayed.derivation graph).record old next = .ok (.record operations assignments)) :
    AccountsFor (replayed.derivation graph).references x.steps old next operations assignments := by
  obtain ⟨log, carried, outs, hreplay, rfl, rfl, hassigned⟩ := x.exists_assigned hr hg hversion h
  obtain ⟨hlogged, hchanges, hsize⟩ := Derivation.logged_replay hreplay
  rw [x.ofCarried_initial] at hchanges
  have hnames : (outs.map Prod.snd).map Assignment.field = next.fields.map NodeField.name := by
    rw [List.map_map]
    exact (map_eq_map_of_forall₂ hassigned fun field out ⟨_, _, _, _, hassign⟩ =>
      (Derivation.field_of_assign hassign).symm).symm
  have hkeys : carried.keys = (outs.map Prod.snd).map Assignment.field :=
    (x.keys_of_record hr hversion h hreplay).trans hnames.symm
  have hdistinct : ((outs.map Prod.snd).map Assignment.field).Nodup := hkeys ▸ carried.distinct
  have hlogs : ∀ out ∈ outs, (Ledger.ofCarried carried).Logs out := by
    intro out hout
    obtain ⟨field, -, value, hmem, -, -, hassign⟩ := exists_left_of_forall₂ hassigned hout
    refine Derivation.logs_of_assign hassign ?_ (x.origin_replay hreplay _ hmem).nested_eq_nil
    rw [Ledger.ofCarried, OrderedMap.get?_eq_some_iff.mpr hmem, Option.map_some]
  have hreplayed : (Ledger.initial old).replay (log ++ outs.flatMap Prod.fst) =
      some (Ledger.ofAssignments (outs.map Prod.snd)) := by
    refine Ledger.replay_append_eq_some_iff.mpr
      ⟨_, hchanges, Ledger.replay_covered hdistinct hlogs fun name hname => ?_⟩
    rw [← hkeys] at hname
    exact Ledger.ofCarried_of_fresh carried hname
  have hunshared := Ledger.unshared_initial old
  exact {
    names := hnames
    log := ⟨log, by rw [Ledger.flatMap_entries hlogs], hlogged⟩
    replay := hreplayed
    once := (hunshared.replay hreplayed).nodup_origins hdistinct
    kept := fun origin => by
      rw [Ledger.mem_origins_iff hdistinct, hunshared.holds_replay_iff hreplayed,
        Ledger.holds_initial_iff]
    count := by
      have hassignments : (outs.map Prod.snd).length = carried.size := by
        have hlength := congrArg List.length hkeys
        rw [OrderedMap.keys, List.length_map, List.length_map] at hlength
        exact hlength.symm
      have hfields : (Derivation.initial old).size = old.fields.length := by
        rw [OrderedMap.size, x.entries_initial, List.length_map]
      rw [hassignments, hsize, hfields] }

end Crossing

namespace Compilation

variable {c : Compilation}

/-- **Record paths account for every field.** A record path leads from the node of its type at a
version to the one at the next version. Its log has one entry for each transformation of the type at
the next version, in order, and then one for each field that keeps its old value or whose value is
upgraded, in the order of the new fields. Performed by name on the old fields, the log yields the
assigned values. Each old value is assigned at most once, and not at all exactly when a field is
removed that holds it. -/
theorem accounts_record {config : Config} {workers : Nat} (h : config.compile workers = .ok c)
    {path : UpgradePath} (hpath : path ∈ c.plan.paths) {operations : List FieldOperation}
    {assignments : List Assignment} (hbody : path.body = .record operations assignments) :
    ∃ version old next, c.graph.nodeAt path.type version = .ok old ∧
      c.graph.nodeAt path.type (version + 1) = .ok next ∧
      path.source = ⟨path.type, some version⟩ ∧ path.source = old.identity ∧
      path.target = next.identity ∧
      AccountsFor c.plan.references (c.transformations (version + 1) path.type) old next operations
        assignments := by
  have hc := sound_of_compile h
  obtain ⟨version, old, next, htype, hsource, htarget, ⟨x⟩, hrecord, hlabel, hreferences⟩ :=
    exists_crossing hc hpath hbody
  rw [htype, hsource, hreferences]
  refine ⟨version, old, next, x.oldNode, x.nextNode, rfl, by rw [Node.identity, hlabel], htarget,
    ?_⟩
  rw [transformations_eq x]
  exact x.accountsFor hc.schema hc.graph hlabel hrecord

/-- The upgrade of `B` moves and converts its fields, and reads each of the two old values once. -/
theorem accounts_record_sample : ∃ c old next, Config.sample.compile 1 = .ok c ∧
    UpgradePath.sample ∈ c.plan.paths ∧ c.graph.nodeAt "B" 0 = .ok old ∧
      c.graph.nodeAt "B" 1 = .ok next ∧ next.fields.map NodeField.name = ["m", "a"] ∧
        (∀ origin ∈ ["n", "a"], origin ∈ old.fields.map NodeField.name) ∧
          (Ledger.initial old).replay
              [.convert "n" 1, .move "n" "m", .upgrade "a" [⟨"A", some 1⟩]] =
            some (Ledger.ofAssignments
              [⟨"m", ⟨"string", .plain⟩, .convert 1 (some [⟨"a", ⟨"A", .array⟩⟩]) (.oldField "n")⟩,
                ⟨"a", ⟨"A", .array⟩,
                  .upgrade .array ⟨"A", some 0⟩ [⟨"A", some 1⟩] (.oldField "a")⟩]) := by
  obtain ⟨c, -, hc, -, -, -, -, -, hpath⟩ := Config.exists_compile_sample
  obtain ⟨version, old, next, hold, hnext, hsource, -, -, haccounts⟩ :=
    accounts_record hc hpath rfl
  obtain rfl : 0 = version := Option.some.inj (Identity.mk.inj hsource).2
  exact ⟨c, old, next, hc, hpath, hold, hnext, haccounts.names.symm,
    fun origin horigin => ((haccounts.kept origin).mp horigin).1, haccounts.replay⟩

end Compilation

end SchemaEvolution

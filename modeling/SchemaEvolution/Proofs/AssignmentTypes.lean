import SchemaEvolution.Proofs.RecordUpgrade
import SchemaEvolution.Proofs.Sharing

/-!
# Derived assignments are well typed

Each value that a record path assigns is of the node that the new field refers to. An old value is
of the node of its old field, a value that a change brings in is of the node that the introduced
type has at the next version, and an upgrade leads from the wrapped first node to the wrapped last
one. Code is given fields of the old node, with their types there.

## Main definitions

* `FieldChange.Brings`: where the value of a field comes from when a change is made
* `Compilation.HoldsAfter`: the value of a field after some steps, and the node of its type
* `Graph.Wraps`: the node of a wrapper around a node with an identity
* `Compilation.Yields`: the node of an assigned value

## Main results

* `FieldChange.brings_of_apply`: every value comes from somewhere
* `Compilation.holdsAfter_replay`: the carried values are those that fields hold
* `Built.wraps_of_node?`: the node of a wrapped type wraps the node of the type
* `Compilation.assignments_typed`: derived assignments are well typed
-/

namespace SchemaEvolution

universe u

/-! ## Where values come from -/

section Brings

variable {τ κ : Type} {α : Type u}

/-- The names whose fields a change takes away or brings in. -/
def FieldChange.touched : FieldChange τ κ → List String
  | .move source target _ => [source, target]
  | .insert field .. => [field]
  | .remove field => [field]
  | .convert field .. => [field]

variable (start : τ → κ → List String → α) (rework : τ → κ → List String → α → α)
  (fields : OrderedMap α)

/-- **Where the value of a field comes from** when a change is made. -/
inductive FieldChange.Brings : FieldChange τ κ → String → α → Prop
  | stay {change : FieldChange τ κ} {field : String} {value : α}
      (hfield : field ∉ change.touched) (h : (field, value) ∈ fields.entries) :
      Brings change field value
  | move {source target : String} {index : Option Nat} {value : α}
      (h : (source, value) ∈ fields.entries) : Brings (.move source target index) target value
  | insert {field : String} {type : τ} {code : κ} {context : List String} {index : Option Nat} :
      Brings (.insert field type code context index) field (start type code context)
  | convert {field : String} {type : τ} {code : κ} {context : List String} {value : α}
      (h : (field, value) ∈ fields.entries) :
      Brings (.convert field type code context) field (rework type code context value)

variable {start rework fields}

theorem OrderedMap.mem_entries_insertAt {place : Nat} {key : String} {value : α}
    {fresh : key ∉ fields} {entry : String × α}
    (h : entry ∈ (fields.insertAt place key value fresh).entries) :
    entry = (key, value) ∨ entry ∈ fields.entries ∧ entry.1 ≠ key := by
  simp only [insertAt, List.mem_append, List.mem_cons] at h
  have hold : entry ∈ fields.entries → entry.1 ≠ key := fun hentry hname =>
    fresh (hname ▸ List.mem_map_of_mem hentry)
  rcases h with h | h | h
  · have hentry := List.mem_of_mem_take h
    exact .inr ⟨hentry, hold hentry⟩
  · exact .inl h
  · have hentry := List.mem_of_mem_drop h
    exact .inr ⟨hentry, hold hentry⟩

theorem OrderedMap.mem_entries_erase {key : String} {entry : String × α} :
    entry ∈ (fields.erase key).entries ↔ entry ∈ fields.entries ∧ entry.1 ≠ key := by
  simp [erase]

/-- **Every value comes from somewhere** when a change is made. -/
theorem FieldChange.brings_of_apply {change : FieldChange τ κ} {site : FieldSite}
    {out : OrderedMap α} (h : change.apply start rework site fields = .ok out)
    {entry : String × α} (hentry : entry ∈ out.entries) :
    Brings start rework fields change entry.1 entry.2 := by
  cases change with
  | move source target index =>
    rw [apply_move] at h
    split at h
    · cases h
    · rename_i slot value hslot
      obtain ⟨hfresh, -, rfl⟩ := place_eq_ok h
      rcases OrderedMap.mem_entries_insertAt hentry with rfl | ⟨hold, htarget⟩
      · exact .move (OrderedMap.mem_of_slotFrom hslot)
      · obtain ⟨hmem, hsource⟩ := OrderedMap.mem_entries_erase.mp hold
        exact .stay (by simp [touched, hsource, htarget]) hmem
  | insert field type code context index =>
    obtain ⟨hfresh, -, rfl⟩ := place_eq_ok h
    rcases OrderedMap.mem_entries_insertAt hentry with rfl | ⟨hmem, hother⟩
    · exact .insert
    · exact .stay (by simp [touched, hother]) hmem
  | remove field =>
    rw [apply_remove] at h
    split at h
    · obtain rfl := Except.ok.inj h
      obtain ⟨hmem, hother⟩ := OrderedMap.mem_entries_erase.mp hentry
      exact .stay (by simp [touched, hother]) hmem
    · cases h
  | convert field type code context =>
    rw [apply_convert] at h
    split at h
    · cases h
    · rename_i value hget
      obtain rfl := Except.ok.inj h
      obtain ⟨old, hold, rfl⟩ := List.mem_map.mp hentry
      unfold OrderedMap.replaceEntry
      split
      · rename_i hsame
        rw [hsame]
        exact .convert (OrderedMap.get?_eq_some_iff.mp hget)
      · exact .stay (by simp [touched, *]) hold

end Brings

/-! ## The values of fields -/

namespace Compilation

/-- **The value that a field holds after some steps** on the old instance, and the node of its type:
that of the old field, or the one that the type of the last insertion or conversion has at the next
version. -/
inductive HoldsAfter (c : Compilation) (version : Nat) (old : Node) :
    List Step → String → ValueExpr → NodeId → Prop
  | start {field : NodeField} (h : field ∈ old.fields) :
      HoldsAfter c version old [] field.name (.oldField field.name) field.target
  | stay {steps : List Step} {step : Step} {field : String} {value : ValueExpr} {id : NodeId}
      (h : HoldsAfter c version old steps field value id) (hfield : field ∉ step.change.touched) :
      HoldsAfter c version old (steps ++ [step]) field value id
  | moved {steps : List Step} {type source target : String} {index : Option Nat}
      {value : ValueExpr} {id : NodeId} (h : HoldsAfter c version old steps source value id) :
      HoldsAfter c version old (steps ++ [⟨type, .move source target index⟩]) target value id
  | created {steps : List Step} {type field : String} {introduced : TypeRef} {code : CodeRef}
      {names : List String} {index : Option Nat} {initializer : RefId} {context : CodeContext}
      {id : NodeId} (hcode : c.plan.reference? initializer = some code)
      (hcontext : context.Lists old names)
      (htype : c.graph.Points (version + 1) introduced.canonical id) :
      HoldsAfter c version old (steps ++ [⟨type, .insert field introduced code names index⟩]) field
        (.create initializer context) id
  | converted {steps : List Step} {type field : String} {introduced : TypeRef} {code : CodeRef}
      {names : List String} {converter : RefId} {context : CodeContext} {input : ValueExpr}
      {inner id : NodeId} (h : HoldsAfter c version old steps field input inner)
      (hcode : c.plan.reference? converter = some code) (hcontext : context.Lists old names)
      (htype : c.graph.Points (version + 1) introduced.canonical id) :
      HoldsAfter c version old (steps ++ [⟨type, .convert field introduced code names⟩]) field
        (.convert converter context input) id

end Compilation

/-- **The node of a wrapper around the node with an identity.** -/
inductive Graph.Wraps (graph : Graph) (identity : Identity) : Modifier → NodeId → Prop
  | plain {inner : Node} (h : graph.resolve identity = .ok inner) :
      Wraps graph identity .plain inner.id
  | nullable {inner node : Node} {id : NodeId} (h : graph.resolve identity = .ok inner)
      (hnode : graph.node id = .ok node) (hkind : node.kind = .nullable inner.id) :
      Wraps graph identity .nullable id
  | array {inner node : Node} {id : NodeId} (h : graph.resolve identity = .ok inner)
      (hnode : graph.node id = .ok node) (hkind : node.kind = .array inner.id) :
      Wraps graph identity .array id

/-- **The node of an assigned value**: that of the value which the field holds in the end, or the
wrapped node that an upgrade of it ends with. -/
inductive Compilation.Yields (c : Compilation) (version : Nat) (old : Node) (field : String) :
    ValueExpr → NodeId → Prop
  | held {value : ValueExpr} {id : NodeId}
      (h : c.HoldsAfter version old (c.transformations (version + 1) old.name) field value id) :
      Yields c version old field value id
  | upgraded {wrapper : Modifier} {first last : Identity} {steps : List Identity}
      {input : ValueExpr} {inner id : NodeId}
      (h : c.HoldsAfter version old (c.transformations (version + 1) old.name) field input inner)
      (hfirst : c.graph.Wraps first wrapper inner) (hlast : steps.getLast? = some last)
      (hid : c.graph.Wraps last wrapper id) :
      Yields c version old field (.upgrade wrapper first steps input) id

namespace Built

variable {replayed : Replayed} {graph : Graph} {v : Nat}
  (hr : replayed.Sound) (hg : Built replayed 0 graph.sketch)

include hg

/-- A node with a label is found by its identity. -/
theorem resolve_identity {id label : Nat} {node : Node} (hget : graph.nodes[id]? = some node)
    (hlabel : node.version = some label) : graph.resolve node.identity = .ok node := by
  obtain ⟨-, hnode⟩ := hg.nodeAt_label hget hlabel
  have hversion : node.identity.version = some label := hlabel
  refine bind_eq_ok.mpr ⟨node, ?_, if_pos rfl⟩
  rw [hversion]
  exact hnode

include hr

/-- **The node of a wrapped type wraps the node of the type.** -/
theorem wraps_of_node? {ref : TypeRef} (href : ref ∈ replayed.typeRefs) {id : NodeId}
    (hid : graph.index.node? ref.canonical v = some id) {inner : Node}
    (hinner : graph.nodeAt ref.name v = .ok inner) {label : Nat}
    (hlabel : inner.version = some label) : graph.Wraps inner.identity ref.modifier id := by
  obtain ⟨hinnerId, hget, -⟩ := hg.represents_of_nodeAt hinner
  have hresolve := hg.resolve_identity hget hlabel
  cases hwrapped : ref.isWrapped with
  | false =>
    rw [TypeRef.canonical_of_not_wrapped hwrapped] at hid
    have hplain : ref.modifier = .plain := by
      have hnot := mt TypeRef.isWrapped_iff.mpr (Bool.eq_false_iff.mp hwrapped)
      exact not_not.mp hnot
    rw [hplain, ← Option.some.inj (hinnerId.symm.trans hid)]
    exact .plain hresolve
  | true =>
    obtain ⟨hv, -⟩ := hg.mem_of_node? hid
    obtain ⟨node, -, hnodeId, hnode, hrep⟩ := hg.exists_nodeAt hv (hr.canonical_mem_names href)
    obtain rfl := Option.some.inj (hnodeId.symm.trans hid)
    obtain ⟨wrapped, hwrappedId, hkind⟩ :=
      hrep.kind.exists_wrapped (hr.entry_wrapper_iff.mpr ⟨href, hwrapped, rfl⟩)
    obtain rfl := Option.some.inj (hinnerId.symm.trans hwrappedId)
    have hnode := Graph.node_eq_ok_iff.mpr hnode
    rcases hkind with ⟨hmodifier, hkind⟩ | ⟨hmodifier, hkind⟩
    · rw [hmodifier]
      exact .nullable hresolve hnode hkind
    · rw [hmodifier]
      exact .array hresolve hnode hkind

end Built

/-! ## The fields of a record path -/

namespace Crossing

variable {replayed : Replayed} {graph : Graph} {v : Nat} {old next : Node}
  (x : Crossing replayed graph v old next) (hr : replayed.Sound)
  (hg : Built replayed 0 graph.sketch)

include x hr hg

/-- **Field by field**: each field of the next node is assigned the value that is carried under its
name in the end, which is of its type. The log of the assignments follows on that of the changes. -/
theorem exists_assigned (hversion : old.version = some v) {operations : List FieldOperation}
    {assignments : List Assignment}
    (h : (replayed.derivation graph).record old next = .ok (.record operations assignments)) :
    ∃ log carried outs, (replayed.derivation graph).replay old (v + 1) x.steps
        (Derivation.initial old) = .ok (log, carried) ∧
      operations = log ++ outs.flatMap Prod.fst ∧ assignments = outs.map Prod.snd ∧
      List.Forall₂ (fun field out => ∃ value, (field.name, value) ∈ carried.entries ∧
        Carries replayed graph v field.type value ∧
        graph.index.node? field.type.canonical (v + 1) = some field.target ∧
        (replayed.derivation graph).assign old next v field.name value field = .ok out)
        next.fields outs := by
  obtain ⟨log, carried, logs, assignments', hreplay, -, hassign, hbody⟩ :=
    Derivation.exists_of_record h
  obtain ⟨rfl, rfl⟩ := UpgradeBody.record.inj hbody
  rw [hversion, Option.getD_some] at hreplay hassign
  have hsteps : (((replayed.derivation graph).history.snapshot? (v + 1) old.name).map
      Snapshot.transformations).getD [] = x.steps := x.transformations_snapshot hr
  rw [hsteps] at hreplay
  -- the carried values are in step with the layout that the next fields are read off
  obtain ⟨log', carried', hreplay', hrelated⟩ :=
    x.exists_replay hr hg (fun _ h => h) (x.run_steps hr) x.initial_carries
  obtain ⟨-, rfl⟩ := Prod.mk.inj (Except.ok.inj (hreplay.symm.trans hreplay'))
  obtain ⟨outs, houts, rfl, rfl⟩ := Derivation.exists_outs_of_assignAll hassign
  refine ⟨log, carried, outs, hreplay, rfl, rfl, ?_⟩
  refine (forall₂_of_zip (forall₂_of_common hrelated x.nextFields) houts).imp ?_
  rintro field out ⟨⟨name, value⟩, hmem, ⟨entry, -, ⟨hname, hcarries⟩, hmatches⟩, hassigned⟩
  obtain rfl : field.name = name := hmatches.name.trans hname
  rw [← hmatches.type] at hcarries
  refine ⟨value, hmem, hcarries, ?_, hassigned⟩
  rw [hmatches.type]
  exact hmatches.target

end Crossing

namespace Compilation

variable {c : Compilation} {version : Nat} {old next : Node}

/-- The values that the replay starts with are those of the old fields. -/
theorem holdsAfter_initial (x : Crossing c.schema c.graph version old next)
    {entry : String × Carried} (hentry : entry ∈ (Derivation.initial old).entries) :
    c.HoldsAfter version old [] entry.1 entry.2.value entry.2.target := by
  rw [x.entries_initial] at hentry
  obtain ⟨field, hfield, rfl⟩ := List.mem_map.mp hentry
  exact .start hfield

/-- **One step of the replay** carries the values that the fields hold after it. -/
theorem holdsAfter_step (hc : c.Sound) (hreferences : c.plan.references = CodeRef.registry c.chain)
    {done : List Step} {step : Step} {change : Derivation.ResolvedChange} {site : FieldSite}
    {carried carried' : OrderedMap Carried}
    (hchange : (c.schema.derivation c.graph).resolveChange old (version + 1) step.change =
      .ok change)
    (happly : change.apply Derivation.start Derivation.rework site carried = .ok carried')
    (h : ∀ entry ∈ carried.entries,
      c.HoldsAfter version old done entry.1 entry.2.value entry.2.target) :
    ∀ entry ∈ carried'.entries,
      c.HoldsAfter version old (done ++ [step]) entry.1 entry.2.value entry.2.target := by
  rintro ⟨field, value⟩ hentry
  have hbrings := FieldChange.brings_of_apply happly hentry
  have hresolved : ∀ {type code names out},
      (c.schema.derivation c.graph).resolve old (version + 1) type code names = .ok out →
        c.plan.reference? out.2.1 = some code ∧ out.2.2.Lists old names ∧
          c.graph.Points (version + 1) type.canonical out.1.2 := by
    intro type code names out hresolve
    obtain ⟨-, hcode, hcontext, htarget⟩ := Derivation.resolve_eq_ok_iff.mp hresolve
    refine ⟨?_, CodeContext.lists_of_context hcontext, hc.graph.points_of_node? htarget⟩
    rw [UpgradePlan.reference?, hreferences]
    exact Derivation.getElem?_of_reference hcode
  obtain ⟨type, declared⟩ := step
  cases declared with
  | move source target index =>
    obtain rfl := Except.ok.inj hchange
    cases hbrings with
    | stay hfield hmem => exact .stay (h _ hmem) hfield
    | move hmem => exact .moved (h _ hmem)
  | remove removed =>
    obtain rfl := Except.ok.inj hchange
    cases hbrings with
    | stay hfield hmem => exact .stay (h _ hmem) hfield
  | insert inserted introduced code names index =>
    obtain ⟨out, hresolve, rfl⟩ := FieldChange.traverse_insert_eq_ok hchange
    obtain ⟨hcode, hcontext, htype⟩ := hresolved hresolve
    cases hbrings with
    | stay hfield hmem => exact .stay (h _ hmem) hfield
    | insert => exact .created hcode hcontext htype
  | convert converted introduced code names =>
    obtain ⟨out, hresolve, rfl⟩ := FieldChange.traverse_convert_eq_ok hchange
    obtain ⟨hcode, hcontext, htype⟩ := hresolved hresolve
    cases hbrings with
    | stay hfield hmem => exact .stay (h _ hmem) hfield
    | convert hmem => exact .converted (h _ hmem) hcode hcontext htype

/-- **The carried values are those that the fields hold** after the steps so far. -/
theorem holdsAfter_replay (hc : c.Sound)
    (hreferences : c.plan.references = CodeRef.registry c.chain) {done steps : List Step}
    {carried out : OrderedMap Carried} {operations : List FieldOperation}
    (hreplay : (c.schema.derivation c.graph).replay old (version + 1) steps carried =
      .ok (operations, out))
    (h : ∀ entry ∈ carried.entries,
      c.HoldsAfter version old done entry.1 entry.2.value entry.2.target) :
    ∀ entry ∈ out.entries,
      c.HoldsAfter version old (done ++ steps) entry.1 entry.2.value entry.2.target := by
  induction steps generalizing done carried operations with
  | nil =>
    obtain ⟨-, rfl⟩ := Prod.mk.inj (Except.ok.inj hreplay)
    rwa [List.append_nil]
  | cons step rest ih =>
    obtain ⟨change, middle, later, hchange, happly, hlater, -⟩ :=
      Derivation.replay_cons_eq_ok hreplay
    have hnext := ih hlater (holdsAfter_step hc hreferences hchange happly h)
    rwa [List.append_assoc, List.singleton_append] at hnext

/-- An assignment of the value that a field holds is of the node of the next field. -/
theorem yields_of_assign (hc : c.Sound) (x : Crossing c.schema c.graph version old next)
    {field : NodeField} {carried : Carried} {log : List FieldOperation} {assignment : Assignment}
    (hholds : c.HoldsAfter version old (c.transformations (version + 1) old.name) field.name
      carried.value carried.target)
    (hcarries : Carries c.schema c.graph version field.type carried)
    (htarget : c.graph.index.node? field.type.canonical (version + 1) = some field.target)
    (h : (c.schema.derivation c.graph).assign old next version field.name carried field =
      .ok (log, assignment)) :
    c.Yields version old field.name assignment.value field.target := by
  obtain ⟨htype, -, hvalue⟩ := Derivation.assign_eq_ok h
  rcases hvalue with ⟨hsame, hvalue⟩ | ⟨hdiffers, first, steps, hnested, hvalue⟩
  · rw [hvalue, ← hsame]
    exact .held hholds
  · obtain ⟨href, hold⟩ := hcarries.target.resolve_left fun hnew =>
      hdiffers (Option.some.inj (hnew.symm.trans htarget))
    have haffected := hc.graph.affected_of_node?_ne x.lt_size
      (hc.schema.canonical_mem_names href)
      (by rw [hold, htarget]; exact fun h => hdiffers (Option.some.inj h))
    obtain ⟨from', to', label, hfirst, hlast, hlabel, hlabel', -⟩ :=
      hc.graph.exists_nested hc.schema x.lt_size
        (Replayed.mem_names_of_knows (hc.schema.knows_typeRefs href))
        (hc.schema.affected_of_canonical href haffected)
    obtain ⟨first', last', hfirst', hlast', hnested'⟩ :=
      hc.graph.exists_nested_type hc.schema x.lt_size href haffected
    obtain rfl := Except.ok.inj (hfirst.symm.trans hfirst')
    obtain rfl := Except.ok.inj (hlast.symm.trans hlast')
    rw [hcarries.type, hnested'] at hnested
    obtain ⟨rfl, rfl⟩ := Prod.mk.inj (Except.ok.inj hnested)
    rw [hvalue, hcarries.type]
    exact .upgraded hholds (hc.graph.wraps_of_node? hc.schema href hold hfirst hlabel) rfl
      (hc.graph.wraps_of_node? hc.schema href htarget hlast hlabel')

/-- **Derived assignments are well typed.** A record path leads from the node of its type at a
version to the one at the next version. Its assignments are those of the next node's fields, in
order and with their types, and each value is of the node that its field refers to. -/
theorem assignments_typed {config : Config} {workers : Nat} (h : config.compile workers = .ok c)
    {path : UpgradePath} (hpath : path ∈ c.plan.paths) {operations : List FieldOperation}
    {assignments : List Assignment} (hbody : path.body = .record operations assignments) :
    ∃ version old next, c.graph.nodeAt path.type version = .ok old ∧
      c.graph.nodeAt path.type (version + 1) = .ok next ∧
      path.source = ⟨path.type, some version⟩ ∧ path.source = old.identity ∧
      path.target = next.identity ∧
      List.Forall₂ (fun field assignment => assignment.field = field.name ∧
        assignment.type = field.type ∧
        c.Yields version old field.name assignment.value field.target)
        next.fields assignments := by
  have hc := sound_of_compile h
  obtain ⟨version, old, next, htype, hsource, htarget, ⟨x⟩, hrecord, hlabel, hreferences⟩ :=
    exists_crossing hc hpath hbody
  rw [htype, hsource]
  refine ⟨version, old, next, x.oldNode, x.nextNode, rfl,
    by rw [Node.identity, hlabel], htarget, ?_⟩
  obtain ⟨log, carried, outs, hreplay, -, rfl, hassigned⟩ :=
    x.exists_assigned hc.schema hc.graph hlabel hrecord
  have hholds := holdsAfter_replay hc hreferences hreplay fun _ => holdsAfter_initial x
  rw [List.nil_append, ← transformations_eq x] at hholds
  refine List.forall₂_map_right_iff.mpr (hassigned.imp fun field out hfield => ?_)
  obtain ⟨value, hmem, hcarries, hnode, hassign⟩ := hfield
  have hyields := yields_of_assign hc x (hholds _ hmem) hcarries hnode hassign
  obtain ⟨-, ⟨-, hout, -⟩ | ⟨-, first, steps, -, hout, -⟩⟩ := Derivation.cases_of_assign hassign
  · exact ⟨congrArg Assignment.field hout, congrArg Assignment.type hout, hyields⟩
  · exact ⟨congrArg Assignment.field hout, congrArg Assignment.type hout, hyields⟩

theorem assignments_typed_sample : ∃ c old next, Config.sample.compile 1 = .ok c ∧
    UpgradePath.sample ∈ c.plan.paths ∧ c.graph.nodeAt "B" 0 = .ok old ∧
      c.graph.nodeAt "B" 1 = .ok next ∧ ∃ converted upgraded, next.fields = [converted, upgraded] ∧
        c.Yields 0 old converted.name
          (.convert 1 (some [⟨"a", ⟨"A", .array⟩⟩]) (.oldField "n")) converted.target ∧
        c.Yields 0 old upgraded.name
          (.upgrade .array ⟨"A", some 0⟩ [⟨"A", some 1⟩] (.oldField "a")) upgraded.target := by
  obtain ⟨c, -, hc, -, -, -, -, -, hpath⟩ := Config.exists_compile_sample
  obtain ⟨version, old, next, hold, hnext, hsource, -, -, hassignments⟩ :=
    assignments_typed hc hpath rfl
  obtain rfl : 0 = version := Option.some.inj (Identity.mk.inj hsource).2
  obtain ⟨converted, rest, hconverted, hrest, hfields⟩ :=
    List.forall₂_cons_right_iff.mp hassignments
  obtain ⟨upgraded, none, hupgraded, hnone, rfl⟩ := List.forall₂_cons_right_iff.mp hrest
  obtain rfl := List.forall₂_nil_right_iff.mp hnone
  exact ⟨c, old, next, hc, hpath, hold, hnext, converted, upgraded, hfields, hconverted.2.2,
    hupgraded.2.2⟩

end Compilation

end SchemaEvolution

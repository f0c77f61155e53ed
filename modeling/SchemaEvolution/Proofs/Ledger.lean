import SchemaEvolution.Upgrade.Plan
import Mathlib.Logic.Function.Basic

/-!
# Performing a log

The log of a record path lists what happened to the fields. It can be performed on its own: a ledger
has what the log tells of each value under the name of its field, and every entry changes a ledger,
if the names that it needs are there and the ones that it brings in are free. On the way no old
value gets under two names, and one is lost only where a field is removed that holds it.

## Main definitions

* `LoggedValue`: what a log tells of a value
* `Ledger`: what a log tells of all fields, by name
* `FieldOperation.perform`, `Ledger.replay`: an entry and a log, performed
* `Ledger.Unshared`, `Ledger.Holds`, `Ledger.Drops`: what becomes of the old values

## Main results

* `Ledger.origin?_of_perform`: what an entry does to the old values
* `Ledger.Unshared.perform`, `Ledger.Unshared.replay`: no old value gets under two names
* `Ledger.Unshared.holds_replay_iff`: a log loses an old value exactly when it drops it
-/

namespace SchemaEvolution

/-! ## Values in a log -/

/-- **What a log tells of a value**: where it comes from, without the context that is handed to
code, and without the wrapper and the first node of an upgrade. -/
inductive LoggedValue where
  /-- The value of a field of the old instance. -/
  | oldField (field : String)
  /-- What a converter makes of a value. -/
  | convert (converter : RefId) (input : LoggedValue)
  /-- What an initializer yields. -/
  | create (initializer : RefId)
  /-- An upgraded value. -/
  | upgrade (steps : List Identity) (input : LoggedValue)
  deriving DecidableEq, Repr

/-- What a log tells of an expression. -/
def ValueExpr.logged : ValueExpr → LoggedValue
  | .oldField field => .oldField field
  | .convert converter _ input => .convert converter input.logged
  | .create initializer _ => .create initializer
  | .upgrade _ _ steps input => .upgrade steps input.logged

/-- The old field whose value is inside a value. -/
def LoggedValue.origin? : LoggedValue → Option String
  | .oldField field => some field
  | .convert _ input => input.origin?
  | .create _ => none
  | .upgrade _ input => input.origin?

/-- **The old field that an expression reads**, inside all conversions and upgrades. -/
def ValueExpr.origin? : ValueExpr → Option String
  | .oldField field => some field
  | .convert _ _ input => input.origin?
  | .create .. => none
  | .upgrade _ _ _ input => input.origin?

@[simp] theorem ValueExpr.origin?_logged (value : ValueExpr) :
    value.logged.origin? = value.origin? := by
  induction value with
  | oldField field => rfl
  | convert converter context input ih => exact ih
  | create initializer context => rfl
  | upgrade wrapper source steps input ih => exact ih

/-! ## Ledgers -/

/-- **The values of fields by name**, as far as a log tells of them. -/
abbrev Ledger := String → Option LoggedValue

namespace Ledger

/-- The ledger of the fields of an old instance. -/
def initial (old : Node) : Ledger := fun name =>
  if name ∈ old.fields.map NodeField.name then some (.oldField name) else none

/-- A value under a free name. -/
def enter (fields : Ledger) (field : String) (value : LoggedValue) : Option Ledger :=
  if fields field = none then some (Function.update fields field (some value)) else none

/-- The value under a name, exchanged for what a function makes of it. -/
def amend (fields : Ledger) (field : String) (f : LoggedValue → LoggedValue) : Option Ledger :=
  (fields field).map fun value => Function.update fields field (some (f value))

end Ledger

/-- **Performs one entry of a log**, unless a name that it needs is not there, or one that it brings
in is taken, or a field that is carried does not hold its old value. -/
def FieldOperation.perform (fields : Ledger) : FieldOperation → Option Ledger
  | .carry field => if fields field = some (.oldField field) then some fields else none
  | .move source target => (fields source).bind fun value =>
      Ledger.enter (Function.update fields source none) target value
  | .remove field => (fields field).map fun _ => Function.update fields field none
  | .insert field initializer => fields.enter field (.create initializer)
  | .convert field converter => fields.amend field (.convert converter)
  | .upgrade field steps => fields.amend field (.upgrade steps)

namespace Ledger

/-- **Performs a log**, one entry after the other. -/
def replay (fields : Ledger) (log : List FieldOperation) : Option Ledger :=
  log.foldlM FieldOperation.perform fields

/-- The old field whose value is under a name. -/
def origin? (fields : Ledger) (name : String) : Option String :=
  (fields name).bind LoggedValue.origin?

/-- **No old value is under two names.** -/
def Unshared (fields : Ledger) : Prop :=
  ∀ ⦃first second origin : String⦄, fields.origin? first = some origin →
    fields.origin? second = some origin → first = second

/-- The value of an old field is under some name. -/
def Holds (fields : Ledger) (origin : String) : Prop := ∃ name, fields.origin? name = some origin

/-- **A log drops the value of an old field**: it removes a field that holds it by then. -/
def Drops (fields : Ledger) (log : List FieldOperation) (origin : String) : Prop :=
  ∃ done field rest before, log = done ++ .remove field :: rest ∧
    fields.replay done = some before ∧ before.origin? field = some origin

variable {fields fields' before : Ledger} {entry : FieldOperation} {log rest : List FieldOperation}
  {origin : String}

theorem replay_cons_eq_some_iff : fields.replay (entry :: log) = some fields' ↔
    ∃ middle, entry.perform fields = some middle ∧ middle.replay log = some fields' := by
  rw [replay, List.foldlM_cons]
  exact Option.bind_eq_some_iff

theorem replay_append_eq_some_iff : fields.replay (log ++ rest) = some fields' ↔
    ∃ middle, fields.replay log = some middle ∧ middle.replay rest = some fields' := by
  rw [replay, List.foldlM_append]
  exact Option.bind_eq_some_iff

/-! ### One entry -/

/-- The old values in a ledger of which one value is exchanged. -/
theorem origin?_update (field : String) (value : Option LoggedValue) :
    origin? (Function.update fields field value) =
      Function.update fields.origin? field (value.bind LoggedValue.origin?) := by
  funext name
  by_cases hname : name = field
  · subst hname
    simp [origin?]
  · simp [origin?, hname]

/-- Exchanging a value for one with the same old value in it changes nothing for old values. -/
theorem origin?_amend {field : String} {f : LoggedValue → LoggedValue}
    (hf : ∀ value, (f value).origin? = value.origin?) (h : fields.amend field f = some fields') :
    fields'.origin? = fields.origin? := by
  obtain ⟨value, hvalue, rfl⟩ := Option.map_eq_some_iff.mp h
  rw [origin?_update, Option.bind_some, hf, Function.update_eq_self_iff, origin?, hvalue,
    Option.bind_some]

/-- **What an entry does to old values**: nothing, or it brings one from its name to another that
has none, or it takes one away with its field. -/
theorem origin?_of_perform (h : entry.perform fields = some fields') :
    (∀ field, entry ≠ .remove field) ∧ fields'.origin? = fields.origin? ∨
      (∃ source target, entry = .move source target ∧
        (target ≠ source → fields.origin? target = none) ∧
        fields'.origin? = Function.update (Function.update fields.origin? source none) target
          (fields.origin? source)) ∨
      ∃ field, entry = .remove field ∧
        fields'.origin? = Function.update fields.origin? field none := by
  cases entry with
  | carry field =>
    obtain ⟨-, h⟩ := Option.ite_none_right_eq_some.mp h
    obtain rfl := Option.some.inj h
    exact .inl ⟨nofun, rfl⟩
  | move source target =>
    obtain ⟨value, hvalue, h⟩ := Option.bind_eq_some_iff.mp h
    obtain ⟨hfree, h⟩ := Option.ite_none_right_eq_some.mp h
    obtain rfl := Option.some.inj h
    refine .inr (.inl ⟨source, target, rfl, fun hother => ?_, ?_⟩)
    · rw [Function.update_of_ne hother] at hfree
      rw [origin?, hfree, Option.bind_none]
    · rw [origin?_update, origin?_update, Option.bind_none, origin?, hvalue]
  | remove field =>
    obtain ⟨value, -, rfl⟩ := Option.map_eq_some_iff.mp h
    exact .inr (.inr ⟨field, rfl, origin?_update field none⟩)
  | insert field initializer =>
    obtain ⟨hfree, h⟩ := Option.ite_none_right_eq_some.mp h
    obtain rfl := Option.some.inj h
    refine .inl ⟨nofun, ?_⟩
    rw [origin?_update, Function.update_eq_self_iff, origin?, hfree]
    rfl
  | convert field converter =>
    exact .inl ⟨nofun, origin?_amend (f := .convert converter) (fun _ => rfl) h⟩
  | upgrade field steps =>
    exact .inl ⟨nofun, origin?_amend (f := .upgrade steps) (fun _ => rfl) h⟩

/-- No entry brings an old value under a second name. -/
theorem Unshared.perform (hunshared : fields.Unshared) (h : entry.perform fields = some fields') :
    fields'.Unshared := by
  intro first second origin hfirst hsecond
  rcases origin?_of_perform h with
    ⟨-, hsame⟩ | ⟨source, target, -, -, hmoved⟩ | ⟨field, -, hremoved⟩
  · rw [hsame] at hfirst hsecond
    exact hunshared hfirst hsecond
  · rw [hmoved, Function.update_apply, Function.update_apply] at hfirst hsecond
    grind [Unshared]
  · rw [hremoved, Function.update_apply] at hfirst hsecond
    grind [Unshared]

/-- **An entry loses an old value exactly when it removes the field that holds it**, and no entry
brings one back. -/
theorem Unshared.holds_perform_iff (hunshared : fields.Unshared)
    (h : entry.perform fields = some fields') :
    fields'.Holds origin ↔ fields.Holds origin ∧
      ¬ ∃ field, entry = .remove field ∧ fields.origin? field = some origin := by
  rcases origin?_of_perform h with
    ⟨hkept, hsame⟩ | ⟨source, target, rfl, hfree, hmoved⟩ | ⟨field, rfl, hremoved⟩
  · simp [Holds, hsame, hkept]
  · simp only [Holds, hmoved, Function.update_apply]
    grind
  · simp only [Holds, hremoved, Function.update_apply]
    grind [Unshared]

/-! ### Runs -/

theorem Unshared.replay (hunshared : fields.Unshared) (h : fields.replay log = some fields') :
    fields'.Unshared := by
  induction log generalizing fields with
  | nil =>
    obtain rfl := Option.some.inj h
    exact hunshared
  | cons entry rest ih =>
    obtain ⟨middle, hentry, hrest⟩ := replay_cons_eq_some_iff.mp h
    exact ih (hunshared.perform hentry) hrest

theorem drops_cons_iff {middle : Ledger} (h : entry.perform fields = some middle) :
    fields.Drops (entry :: log) origin ↔
      (∃ field, entry = .remove field ∧ fields.origin? field = some origin) ∨
        middle.Drops log origin := by
  constructor
  · rintro ⟨done, field, rest, before, hlog, hdone, horigin⟩
    cases done with
    | nil =>
      obtain ⟨rfl, -⟩ := List.cons.inj hlog
      obtain rfl := Option.some.inj hdone
      exact .inl ⟨field, rfl, horigin⟩
    | cons first done =>
      obtain ⟨rfl, rfl⟩ := List.cons.inj hlog
      obtain ⟨middle', hfirst, hdone⟩ := replay_cons_eq_some_iff.mp hdone
      obtain rfl := Option.some.inj (h.symm.trans hfirst)
      exact .inr ⟨done, field, rest, before, rfl, hdone, horigin⟩
  · rintro (⟨field, rfl, horigin⟩ | ⟨done, field, rest, before, rfl, hdone, horigin⟩)
    · exact ⟨[], field, log, fields, rfl, rfl, horigin⟩
    · exact ⟨entry :: done, field, rest, before, rfl,
        replay_cons_eq_some_iff.mpr ⟨middle, h, hdone⟩, horigin⟩

/-- **A log loses an old value exactly when it drops it**, and brings none back. -/
theorem Unshared.holds_replay_iff (hunshared : fields.Unshared)
    (h : fields.replay log = some fields') :
    fields'.Holds origin ↔ fields.Holds origin ∧ ¬ fields.Drops log origin := by
  induction log generalizing fields with
  | nil =>
    obtain rfl := Option.some.inj h
    have hkept : ¬ fields.Drops [] origin := by
      rintro ⟨done, field, rest, -, hlog, -⟩
      exact List.append_ne_nil_of_right_ne_nil done (List.cons_ne_nil _ rest) hlog.symm
    exact (and_iff_left hkept).symm
  | cons entry rest ih =>
    obtain ⟨middle, hentry, hrest⟩ := replay_cons_eq_some_iff.mp h
    rw [ih (hunshared.perform hentry) hrest, hunshared.holds_perform_iff hentry,
      drops_cons_iff hentry, not_or, and_assoc]

/-! ### The old fields -/

theorem origin?_initial {old : Node} {name : String}
    (h : (initial old).origin? name = some origin) :
    name = origin ∧ origin ∈ old.fields.map NodeField.name := by
  unfold origin? initial at h
  split at h
  · obtain rfl : name = origin := Option.some.inj h
    exact ⟨rfl, ‹_›⟩
  · cases h

theorem unshared_initial (old : Node) : (initial old).Unshared := fun _ _ _ hfirst hsecond =>
  (origin?_initial hfirst).1.trans (origin?_initial hsecond).1.symm

theorem holds_initial_iff {old : Node} :
    (initial old).Holds origin ↔ origin ∈ old.fields.map NodeField.name := by
  refine ⟨fun ⟨_, h⟩ => (origin?_initial h).2, fun h => ⟨origin, ?_⟩⟩
  rw [origin?, initial, if_pos h]
  rfl

end Ledger

end SchemaEvolution

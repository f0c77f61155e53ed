import SchemaEvolution.Layout
import SchemaEvolution.Upgrade.Derive
import SchemaEvolution.Proofs.Change

/-!
# Upgrading an instance

An instance of a record can be upgraded in two ways. The plan has an expression for each new field,
which is evaluated on the old instance. The schema has transformations, which are executed on the
fields of the instance one after the other. Both depend on what the code of the schema does, so
both are given for any interpretation of it.

## Main definitions

* `Interpretation`: what code and nested upgrades do to values
* `ValueExpr.eval`, `evalAssignments`: the expressions of a plan, on an old instance
* `Held`: the value of a field while transformations are executed
* `FieldChange.execute`, `Execution.run`: the transformations, on the fields of an old instance

## Main results

* `FieldChange.execute_of_apply`: execution does to the fields what a change does to a layout
-/

namespace SchemaEvolution

variable {α : Type}

/-- **What code and nested upgrades do to values.** Initializers and converters are given the
fields that they read; a nested upgrade leads from the value of one node to that of another, and
is applied inside of nullables and arrays. -/
structure Interpretation (α : Type) where
  create : CodeRef → List (String × α) → α
  convert : CodeRef → List (String × α) → α → α
  step : Identity → Identity → α → α
  within : Modifier → (α → α) → α → α

/-- The nested upgrade along some nodes, one step after the other. -/
def Interpretation.steps (interpretation : Interpretation α) : Identity → List Identity → α → α
  | _, [], value => value
  | source, next :: rest, value =>
    interpretation.steps next rest (interpretation.step source next value)

/-- Some fields of an instance, by name. -/
def readFields (record : OrderedMap α) (names : List String) : Option (List (String × α)) :=
  names.mapM fun name => (record.get? name).map (Prod.mk name)

/-! ## Expressions -/

/-- The fields that an expression hands to code. -/
def CodeContext.read (record : OrderedMap α) : CodeContext → Option (List (String × α))
  | none => some []
  | some fields => readFields record (fields.map ContextField.field)

/-- **The value of an expression** on an old instance. -/
def ValueExpr.eval (interpretation : Interpretation α) (references : List CodeRef)
    (record : OrderedMap α) : ValueExpr → Option α
  | .oldField field => record.get? field
  | .create initializer context => do
    let code ← references[initializer]?
    let fields ← CodeContext.read record context
    return interpretation.create code fields
  | .convert converter context input => do
    let value ← input.eval interpretation references record
    let code ← references[converter]?
    let fields ← CodeContext.read record context
    return interpretation.convert code fields value
  | .upgrade wrapper source steps input => do
    let value ← input.eval interpretation references record
    return interpretation.within wrapper (interpretation.steps source steps) value

/-- **The new fields that a plan yields**, in the order of the assignments. -/
def evalAssignments (interpretation : Interpretation α) (references : List CodeRef)
    (record : OrderedMap α) (assignments : List Assignment) : Option (List (String × α)) :=
  assignments.mapM fun assignment =>
    (assignment.value.eval interpretation references record).map (Prod.mk assignment.field)

/-! ## Execution -/

/-- **The value of a field while transformations are executed**: with its type, and whether it is
still the value of the old instance. -/
structure Held (α : Type) where
  value : α
  type : TypeRef
  original : Bool

/-- **One transformation is executed** on the fields of an instance; code reads from the old
instance. -/
def FieldChange.execute (interpretation : Interpretation α) (record : OrderedMap α) :
    FieldChange TypeRef CodeRef → List (String × Held α) → Option (List (String × Held α))
  | .move source target index, fields => do
    let place ← fields.findIdx? fun entry => entry.1 == source
    let (_, held) ← fields[place]?
    return (fields.eraseIdx place).insertIdx (index.getD place) (target, held)
  | .insert field type initializer context index, fields => do
    let given ← readFields record context
    return fields.insertIdx (index.getD fields.length)
      (field, ⟨interpretation.create initializer given, type, false⟩)
  | .remove field, fields => some (fields.filter fun entry => entry.1 != field)
  | .convert field type converter context, fields => do
    let given ← readFields record context
    return fields.map fun entry =>
      if entry.1 = field then
        (field, ⟨interpretation.convert converter given entry.2.value, type, false⟩)
      else entry

namespace Execution

/-- The fields of an old instance, in the order of its layout. -/
def start (layout : Layout) (record : OrderedMap α) : Option (List (String × Held α)) :=
  layout.entries.mapM fun entry =>
    (record.get? entry.1).map fun value => (entry.1, ⟨value, entry.2, true⟩)

/-- The transformations are executed one after the other. -/
def steps (interpretation : Interpretation α) (record : OrderedMap α) :
    List Step → List (String × Held α) → Option (List (String × Held α))
  | [], fields => some fields
  | step :: rest, fields => do
    steps interpretation record rest (← step.change.execute interpretation record fields)

/-- The value of a field in the end. One that is still the value of the old instance is upgraded
itself when its type changes behind the version. -/
def finish (interpretation : Interpretation α) (graph : Graph) (version : Nat) (held : Held α) :
    Option α := do
  let changed ← graph.changedAt? version
  if held.original ∧ held.type.canonical ∈ changed then
    let first ← (graph.nodeAt held.type.name version).toOption
    let last ← (graph.nodeAt held.type.name (version + 1)).toOption
    return interpretation.within held.type.modifier
      (interpretation.step first.identity last.identity) held.value
  else return held.value

/-- **An old instance goes through the transformations of the next version.** -/
def run (interpretation : Interpretation α) (graph : Graph) (version : Nat)
    (transformations : List Step) (layout : Layout) (record : OrderedMap α) :
    Option (List (String × α)) := do
  let fields ← start layout record
  let fields ← steps interpretation record transformations fields
  fields.mapM fun entry => (finish interpretation graph version entry.2).map (Prod.mk entry.1)

end Execution

/-! ## Lists of fields -/

section Fields

variable {β γ : Type}

theorem mapM_eq_some_iff {f : γ → Option β} {xs : List γ} {ys : List β} :
    xs.mapM f = some ys ↔ List.Forall₂ (fun x y => f x = some y) xs ys := by
  induction xs generalizing ys with
  | nil => cases ys <;> simp
  | cons x xs ih =>
    rw [List.mapM_cons, List.forall₂_cons_left_iff]
    simp only [Option.bind_eq_bind, Option.bind_eq_some_iff, ih]
    constructor
    · rintro ⟨y, hy, ys', hys, h⟩
      exact ⟨y, ys', hy, hys, (Option.some.inj h).symm⟩
    · rintro ⟨y, ys', hy, hys, rfl⟩
      exact ⟨y, hy, ys', hys, rfl⟩

/-- Two computations with the same values at all places yield the same list. -/
theorem exists_mapM_eq_some {δ : Type} {f : γ → Option β} {g : δ → Option β} {xs : List γ}
    {ys : List δ} (h : List.Forall₂ (fun x y => ∃ out, f x = some out ∧ g y = some out) xs ys) :
    ∃ out, xs.mapM f = some out ∧ ys.mapM g = some out := by
  induction h with
  | nil => exact ⟨[], by simp, by simp⟩
  | cons hxy _ ih =>
    obtain ⟨first, hf, hg⟩ := hxy
    obtain ⟨rest, hrest, hrest'⟩ := ih
    refine ⟨first :: rest, mapM_eq_some_iff.mpr (.cons hf (mapM_eq_some_iff.mp hrest)), ?_⟩
    exact mapM_eq_some_iff.mpr (.cons hg (mapM_eq_some_iff.mp hrest'))

theorem insertIdx_eq_take_drop {xs : List β} {place : Nat} (h : place ≤ xs.length) (x : β) :
    xs.insertIdx place x = xs.take place ++ x :: xs.drop place := by
  induction place generalizing xs with
  | zero => rfl
  | succ place ih =>
    cases xs with
    | nil => cases h
    | cons first rest =>
      rw [List.insertIdx_succ_cons, ih (Nat.le_of_succ_le_succ h), List.take_succ_cons,
        List.drop_succ_cons, List.cons_append]

/-- The place of a field is that of the first entry with its name, which is the only one. -/
theorem findIdx?_of_slotFrom {fields : List (String × β)} {key : String} {first place : Nat}
    {value : β} (hd : (fields.map Prod.fst).Nodup)
    (h : OrderedMap.slotFrom key first fields = some (place, value)) :
    ∃ i, place = first + i ∧ fields.findIdx? (fun entry => entry.1 == key) = some i ∧
      fields[i]? = some (key, value) ∧
        fields.filter (fun entry => entry.1 != key) = fields.eraseIdx i := by
  induction fields generalizing first with
  | nil => cases h
  | cons entry rest ih =>
    obtain ⟨name, other⟩ := entry
    obtain ⟨hnew, hd⟩ := List.nodup_cons.mp hd
    unfold OrderedMap.slotFrom at h
    split at h
    · rename_i hname
      subst hname
      obtain ⟨rfl, rfl⟩ := Prod.mk.inj (Option.some.inj h)
      have hrest : ∀ later ∈ rest, (later.1 != name) = true := fun later hlater =>
        bne_iff_ne.mpr fun hsame => hnew (List.mem_map.mpr ⟨later, hlater, hsame⟩)
      refine ⟨0, rfl, by simp [List.findIdx?_cons], rfl, ?_⟩
      rw [List.filter_cons_of_neg (by simp), List.filter_eq_self.mpr hrest, List.eraseIdx_cons_zero]
    · rename_i hname
      obtain ⟨i, rfl, hfind, hget, hfilter⟩ := ih hd h
      refine ⟨i + 1, by omega, ?_, hget, ?_⟩
      · simp [List.findIdx?_cons, hname, hfind]
      · rw [List.filter_cons_of_pos (by simpa using hname), hfilter, List.eraseIdx_cons_succ]

end Fields

/-! ## Execution is a change of the fields -/

namespace FieldChange

variable {interpretation : Interpretation α} {record : OrderedMap α}

/-- The value that an insertion creates. -/
def created (interpretation : Interpretation α) (record : OrderedMap α) (type : TypeRef)
    (code : CodeRef) (context : List String) : Held α :=
  ⟨interpretation.create code ((readFields record context).getD []), type, false⟩

/-- The value that a conversion puts in the place of another. -/
def converted (interpretation : Interpretation α) (record : OrderedMap α) (type : TypeRef)
    (code : CodeRef) (context : List String) (held : Held α) : Held α :=
  ⟨interpretation.convert code ((readFields record context).getD []) held.value, type, false⟩

/-- **Execution does to the fields what a change does to a layout.** -/
theorem execute_of_apply {change : FieldChange TypeRef CodeRef} {site : FieldSite}
    {fields out : OrderedMap (Held α)} {given : List (String × α)}
    (hcontext : readFields record change.context = some given)
    (h : change.apply (created interpretation record) (converted interpretation record) site
      fields = .ok out) :
    change.execute interpretation record fields.entries = some out.entries := by
  cases change with
  | move source target index =>
    rw [apply_move] at h
    split at h
    · cases h
    · rename_i place held hslot
      obtain ⟨hfresh, hle, rfl⟩ := place_eq_ok h
      obtain ⟨i, hplace, hfind, hget, hfilter⟩ := findIdx?_of_slotFrom fields.distinct hslot
      obtain rfl : place = i := by omega
      have herase : (fields.erase source).entries = fields.entries.eraseIdx place := hfilter
      rw [OrderedMap.size, herase] at hle
      rw [execute, hfind]
      simp only [Option.bind_eq_bind, Option.bind_some, hget]
      rw [insertIdx_eq_take_drop hle, ← herase]
      rfl
  | insert field type code context index =>
    obtain ⟨hfresh, hle, rfl⟩ := place_eq_ok h
    have hcontext : readFields record context = some given := hcontext
    rw [execute, hcontext]
    simp only [Option.bind_eq_bind, Option.bind_some, created]
    rw [hcontext]
    exact congrArg some (insertIdx_eq_take_drop hle _)
  | remove field =>
    rw [apply_remove] at h
    split at h
    · obtain rfl := Except.ok.inj h
      rfl
    · cases h
  | convert field type code context =>
    rw [apply_convert] at h
    split at h
    · cases h
    · rename_i held hget
      obtain rfl := Except.ok.inj h
      have hcontext : readFields record context = some given := hcontext
      rw [execute, hcontext]
      refine congrArg some (List.map_congr_left fun entry hentry => ?_)
      unfold OrderedMap.replaceEntry
      split
      · rename_i hname
        have hsame := OrderedMap.get?_eq_some_iff.mpr hentry
        rw [hname, hget] at hsame
        obtain rfl := Option.some.inj hsame
        rw [converted, hcontext, hname]
        rfl
      · rfl

end FieldChange

end SchemaEvolution

import SchemaEvolution.Proofs.Index

/-!
# The index is written once

A run makes any number of calls on one index. A call enters a node only under a key that is known
and has none yet, so what a run leaves under a key is the first node that was entered there, and
no later call changes it.

## Main definitions

* `Index.Call`, `Index.Compute`: what is asked of an index
* `Index.Answer`: what a call returns, what it enters, and the index behind it
* `Index.Run`, `Run.step`, `Index.run`: an index with all entries so far, call after call

## Main results

* `Call.answer_cases`: a call changes nothing, or enters one node under a vacant key
* `Recorded.step`, `Recorded.run`: the entries of a run say what its index holds
* `Index.run_writeOnce`: what every call does in every state that a run leads to
-/

namespace SchemaEvolution.Index

variable {index : Index} {name : String} {version : Nat} {id : NodeId}

/-! ## A key is unknown, vacant or taken -/

theorem slot_of_unknown (hname : name ∉ index.names version) :
    index.slot name version = .error (.typeNotFound name version) := by
  have hslot : (index.row version).get? name = none := by
    rw [← Option.not_isSome_iff_eq_none]
    exact mt mem_names_iff.mpr hname
  simp [Index.slot, hslot]

section Unknown

variable (hname : name ∉ index.names version)

include hname

theorem run_enter_of_unknown :
    (enter name version id).run index = (.error (.typeNotFound name version), index) := by
  simp only [enter, Action.run_bind, Action.run_get, Action.run_result, slot_of_unknown hname]

theorem run_resolveOrEnter_of_unknown (f : Unit → Except SchemaError NodeId) :
    (resolveOrEnter name version f).run index =
      (.error (.typeNotFound name version), index) := by
  simp only [resolveOrEnter, Action.run_bind, Action.run_get, Action.run_result,
    slot_of_unknown hname]

theorem bind_of_unknown : index.bind name version id = .error (.typeNotFound name version) := by
  rw [Index.bind, Action.outcome, run_enter_of_unknown hname]
  rfl

theorem resolve_of_unknown : index.resolve name version = .error (.typeNotFound name version) := by
  rw [resolve, slot_of_unknown hname]
  rfl

theorem resolveOrBind_of_unknown (f : Unit → Except SchemaError NodeId) :
    index.resolveOrBind name version f = .error (.typeNotFound name version) := by
  rw [resolveOrBind, Action.outcome, run_resolveOrEnter_of_unknown hname]
  rfl

end Unknown

section Taken

variable (hnode : index.node? name version = some id)

include hnode

theorem run_enter_of_taken (other : NodeId) : (enter name version other).run index =
    (.error (.internal s!"node for '{name}' at version {version} bound twice"), index) := by
  simp only [enter, Action.run_bind, Action.run_get, Action.run_result,
    slot_of_known (mem_names_of_node? hnode), hnode]
  rfl

/-- Under a key that is taken no computation is run. -/
theorem run_resolveOrEnter_of_taken (f : Unit → Except SchemaError NodeId) :
    (resolveOrEnter name version f).run index = (.ok (id, false), index) := by
  simp only [resolveOrEnter, Action.run_bind, Action.run_get, Action.run_result,
    slot_of_known (mem_names_of_node? hnode), hnode]
  rfl

theorem bind_of_taken (other : NodeId) : index.bind name version other =
    .error (.internal s!"node for '{name}' at version {version} bound twice") := by
  rw [Index.bind, Action.outcome, run_enter_of_taken hnode]
  rfl

theorem resolveOrBind_of_taken (f : Unit → Except SchemaError NodeId) :
    index.resolveOrBind name version f = .ok ⟨id, false, index⟩ := by
  rw [resolveOrBind, Action.outcome, run_resolveOrEnter_of_taken hnode]
  rfl

end Taken

/-! ## Dependents -/

theorem dependents_eq : index.dependents name version =
    (index.names version).filter fun other => (index.references other version).contains name := by
  rw [dependents_eq_filter, names, SortedMap.keys, List.filter_map]
  refine congrArg _ (List.filter_congr fun entry hentry => ?_)
  have hget := SortedMap.get?_eq_some_iff.mpr hentry
  simp [references, hget]

theorem SameShape.dependents {a b : Index} (h : SameShape a b) (name : String) (version : Nat) :
    a.dependents name version = b.dependents name version := by
  simp only [dependents_eq, h.names, h.references]

/-! ## Calls -/

/-- How the node of a name at a version is computed. -/
inductive Compute
  /-- It is known from elsewhere. -/
  | gives (id : NodeId)
  /-- There is none. -/
  | fails (e : SchemaError)
  /-- It is that of the same name at the next version. -/
  | next
  deriving DecidableEq, Repr

def Compute.run (index : Index) (name : String) (version : Nat) :
    Compute → Unit → Except SchemaError NodeId
  | .gives id, _ => .ok id
  | .fails e, _ => .error e
  | .next, _ => index.resolve name (version + 1)

/-- A call on an index. -/
inductive Call
  | bind (name : String) (version : Nat) (id : NodeId)
  | resolve (name : String) (version : Nat)
  | resolveOrBind (name : String) (version : Nat) (compute : Compute)
  deriving DecidableEq, Repr

/-- The name and the version that a call is about. -/
def Call.key : Call → String × Nat
  | .bind name version _ | .resolve name version | .resolveOrBind name version _ => (name, version)

/-- What comes of a call. -/
structure Answer where
  /-- What is returned; binding returns no node. -/
  result : Except SchemaError (Option NodeId)
  /-- The node that is entered. -/
  stored : Option NodeId
  /-- The index behind the call. -/
  index : Index

/-- **Making a call.** The index behind it is the one that the action leaves, be it in vain. -/
def Call.answer (index : Index) : Call → Answer
  | .bind name version id =>
    match (enter name version id).run index with
    | (.ok _, after) => ⟨.ok none, some id, after⟩
    | (.error e, after) => ⟨.error e, none, after⟩
  | .resolve name version => ⟨(index.resolve name version).map some, none, index⟩
  | .resolveOrBind name version compute =>
    match (resolveOrEnter name version (compute.run index name version)).run index with
    | (.ok (id, computed), after) => ⟨.ok (some id), if computed then some id else none, after⟩
    | (.error e, after) => ⟨.error e, none, after⟩

/-- **A call changes nothing, or enters one node** under a key that is known and vacant. -/
theorem Call.answer_cases (index : Index) (call : Call) :
    ((call.answer index).stored = none ∧ (call.answer index).index = index) ∨
      ∃ name version id, call.key = (name, version) ∧ name ∈ index.names version ∧
        index.node? name version = none ∧ (∃ node, (call.answer index).result = .ok node) ∧
          (call.answer index).stored = some id ∧
            (call.answer index).index = index.store name version id := by
  cases call with
  | resolve name version => exact .inl ⟨rfl, rfl⟩
  | bind name version id =>
    by_cases hname : name ∈ index.names version
    · cases hnode : index.node? name version with
      | none =>
        rw [answer, run_enter_of_vacant hname hnode]
        exact .inr ⟨name, version, id, rfl, hname, hnode, ⟨_, rfl⟩, rfl, rfl⟩
      | some other =>
        rw [answer, run_enter_of_taken hnode]
        exact .inl ⟨rfl, rfl⟩
    · rw [answer, run_enter_of_unknown hname]
      exact .inl ⟨rfl, rfl⟩
  | resolveOrBind name version compute =>
    by_cases hname : name ∈ index.names version
    · cases hnode : index.node? name version with
      | none =>
        rw [answer, run_resolveOrEnter_of_vacant hname hnode]
        cases compute.run index name version () with
        | error e => exact .inl ⟨rfl, rfl⟩
        | ok id => exact .inr ⟨name, version, id, rfl, hname, hnode, ⟨_, rfl⟩, rfl, rfl⟩
      | some other =>
        rw [answer, run_resolveOrEnter_of_taken hnode]
        exact .inl ⟨rfl, rfl⟩
    · rw [answer, run_resolveOrEnter_of_unknown hname]
      exact .inl ⟨rfl, rfl⟩

/-- A call that fails changes nothing. -/
theorem Call.index_of_error {call : Call} {e : SchemaError}
    (h : (call.answer index).result = .error e) : (call.answer index).index = index := by
  rcases call.answer_cases index with ⟨-, hindex⟩ | ⟨_, _, _, -, -, -, ⟨node, hresult⟩, -⟩
  · exact hindex
  · rw [hresult] at h
    cases h

/-- **A call on one key changes no other.** -/
theorem Call.resolve_answer_of_ne {call : Call} (hkey : call.key ≠ (name, version)) :
    (call.answer index).index.resolve name version = index.resolve name version := by
  rcases call.answer_cases index with ⟨-, hindex⟩ | ⟨_, _, _, hown, hname, -, -, -, hindex⟩
  · rw [hindex]
  · apply resolve_congr
    rw [hindex, node?_store hname, if_neg]
    rintro ⟨rfl, rfl⟩
    exact hkey hown

/-! ## Runs -/

/-- An index in the course of a run, with all that was entered so far, in order. -/
structure Run where
  index : Index
  entries : List ((String × Nat) × NodeId)

/-- The run with one more call. -/
def Run.step (run : Run) (call : Call) : Run :=
  let answer := call.answer run.index
  ⟨answer.index, run.entries ++ (answer.stored.map (call.key, ·)).toList⟩

/-- **Making one call after the other.** -/
def run (index : Index) (calls : List Call) : Run := calls.foldl Run.step ⟨index, []⟩

/-- **The entries say what the index holds**: under each key the first of its entries, of which
there is one at most. -/
structure Recorded (initial : Index) (run : Run) : Prop where
  shape : SameShape initial run.index
  found : ∀ name version, run.index.node? name version = run.entries.lookup (name, version)
  once : (run.entries.map Prod.fst).Nodup

theorem Recorded.step {initial : Index} {run : Run} (h : Recorded initial run) (call : Call) :
    Recorded initial (run.step call) := by
  rcases call.answer_cases run.index with
    ⟨hstored, hindex⟩ | ⟨name, version, id, hkey, hname, hnone, -, hstored, hindex⟩
  · have hsame : run.step call = run := by simp [Run.step, hstored, hindex]
    rwa [hsame]
  · have hstep : run.step call =
        ⟨run.index.store name version id, run.entries ++ [((name, version), id)]⟩ := by
      simp [Run.step, hstored, hindex, hkey]
    rw [hstep]
    have hvacant : run.entries.lookup (name, version) = none := h.found name version ▸ hnone
    refine ⟨h.shape.trans sameShape_store, fun other version' => ?_, ?_⟩
    · rw [node?_store hname, List.lookup_append, ← h.found]
      by_cases hother : (other, version') = (name, version)
      · obtain ⟨rfl, rfl⟩ := Prod.mk.inj hother
        simp [hnone]
      · rw [if_neg fun hsame => hother (Prod.ext hsame.1 hsame.2)]
        have hbeq : ((other, version') == (name, version)) = false := by simpa using hother
        simp [List.lookup, hbeq]
    · rw [List.map_append, List.map_singleton, ← List.concat_eq_append, List.nodup_concat]
      refine ⟨?_, h.once⟩
      intro hmem
      obtain ⟨entry, hentry, hsame⟩ := List.mem_map.mp hmem
      have hother := List.lookup_eq_none_iff.mp hvacant entry hentry
      simp [hsame] at hother

theorem Recorded.run {initial : Index} {start : Run} (h : Recorded initial start)
    (calls : List Call) : Recorded initial (calls.foldl Run.step start) := by
  induction calls generalizing start with
  | nil => exact h
  | cons call rest ih => exact ih (h.step call)

theorem entries_prefix (start : Run) (calls : List Call) :
    start.entries <+: (calls.foldl Run.step start).entries := by
  induction calls generalizing start with
  | nil => exact List.prefix_rfl
  | cons call rest ih => exact (List.prefix_append _ _).trans (ih (start.step call))

/-- A name is in a table of references at a version. -/
def Known (rows : List (SortedMap (List String))) (name : String) (version : Nat) : Prop :=
  ∃ row, rows[version]? = some row ∧ name ∈ row.keys

theorem mem_names_ofReferences {rows : List (SortedMap (List String))} :
    name ∈ (ofReferences rows).names version ↔ Known rows name version := by
  constructor
  · intro hname
    have hlt : version < rows.length := size_ofReferences ▸ lt_size_of_mem_names hname
    have hrow : rows[version]? = some rows[version] := List.getElem?_eq_getElem hlt
    exact ⟨_, hrow, names_ofReferences hrow ▸ hname⟩
  · rintro ⟨row, hrow, hname⟩
    rwa [names_ofReferences hrow]

/-- **The index is written once.** Whatever calls are made on the index of a table of references,
resolving a key finds the first node that was entered under it, which all later entries leave in
place. A key that is taken can not be bound again and no computation is run for it; a key that is
vacant can be bound, and what is computed for it is entered unless the computation fails; all calls
on an unknown key fail. Failing calls change nothing, no call changes another key, and names,
references and dependents are those of the table. -/
theorem run_writeOnce (rows : List (SortedMap (List String))) (calls : List Call) :
    let run := (ofReferences rows).run calls
    (∀ name version id, run.index.resolve name version = .ok id ↔
      run.entries.lookup (name, version) = some id) ∧
    (run.entries.map Prod.fst).Nodup ∧
    (∀ more, run.entries <+: ((ofReferences rows).run (calls ++ more)).entries) ∧
    (∀ name version id, run.entries.lookup (name, version) = some id →
      (∀ other, run.index.bind name version other =
        .error (.internal s!"node for '{name}' at version {version} bound twice")) ∧
      ∀ f, run.index.resolveOrBind name version f = .ok ⟨id, false, run.index⟩) ∧
    (∀ name version, Known rows name version → run.entries.lookup (name, version) = none →
      run.index.resolve name version = .error (.typeNotFound name version) ∧
      (∀ id, ∃ index', run.index.bind name version id = .ok index' ∧
        index'.resolve name version = .ok id) ∧
      (∀ f id, f () = .ok id → ∃ index', run.index.resolveOrBind name version f =
        .ok ⟨id, true, index'⟩ ∧ index'.resolve name version = .ok id) ∧
      ∀ f e, f () = .error e → run.index.resolveOrBind name version f = .error e) ∧
    (∀ name version, ¬Known rows name version →
      run.index.resolve name version = .error (.typeNotFound name version) ∧
      (∀ id, run.index.bind name version id = .error (.typeNotFound name version)) ∧
      ∀ f, run.index.resolveOrBind name version f = .error (.typeNotFound name version)) ∧
    (∀ call : Call,
      (∀ e, (call.answer run.index).result = .error e →
        (call.answer run.index).index = run.index) ∧
      ∀ name version, call.key ≠ (name, version) →
        (call.answer run.index).index.resolve name version = run.index.resolve name version) ∧
    ∀ name version, run.index.names version = (ofReferences rows).names version ∧
      run.index.references name version = (ofReferences rows).references name version ∧
        run.index.dependents name version = (ofReferences rows).dependents name version := by
  intro run
  have hstart : Recorded (ofReferences rows) ⟨ofReferences rows, []⟩ :=
    ⟨.refl _, fun _ _ => node?_ofReferences, List.nodup_nil⟩
  have hrun : Recorded (ofReferences rows) run := hstart.run calls
  have hknown : ∀ {name version}, name ∈ run.index.names version ↔ Known rows name version := by
    intro name version
    rw [← hrun.shape.names, mem_names_ofReferences]
  have hstored : ∀ {name version} (id : NodeId), name ∈ run.index.names version →
      (run.index.store name version id).resolve name version = .ok id := by
    intro name version id hname
    rw [resolve_eq_ok_iff, node?_store hname, if_pos ⟨rfl, rfl⟩]
  refine ⟨fun name version id => ?_, hrun.once, fun more => ?_, fun name version id htaken => ?_,
    fun name version hname hvacant => ?_, fun name version hunknown => ?_, fun call => ?_,
    fun name version => ?_⟩
  · rw [resolve_eq_ok_iff, hrun.found]
  · rw [Index.run, List.foldl_append]
    exact entries_prefix run more
  · have hnode := (hrun.found name version).trans htaken
    exact ⟨bind_of_taken hnode, resolveOrBind_of_taken hnode⟩
  · have hname := hknown.mpr hname
    have hnone := (hrun.found name version).trans hvacant
    refine ⟨resolve_eq_error_iff.mpr ⟨hnone, rfl⟩,
      fun id => ⟨_, bind_of_fresh hname hnone id, hstored id hname⟩, fun f id hf => ?_,
      fun f e hf => ?_⟩
    · exact ⟨_, resolveOrBind_of_fresh hname hnone hf, hstored id hname⟩
    · rw [resolveOrBind_of_vacant hname hnone, hf]
      rfl
  · have hname := mt hknown.mp hunknown
    exact ⟨resolve_of_unknown hname, fun _ => bind_of_unknown hname,
      resolveOrBind_of_unknown hname⟩
  · exact ⟨fun e => Call.index_of_error, fun name version => Call.resolve_answer_of_ne⟩
  · exact ⟨(hrun.shape.names version).symm, (hrun.shape.references name version).symm,
      (hrun.shape.dependents name version).symm⟩

/-- Two versions, of which the second has a name more. -/
def rowsSample : List (SortedMap (List String)) :=
  [.ofList [("A", [])], .ofList [("A", []), ("B", ["A"])]]

/-- A computation that fails before one that succeeds, and a second node for one key. -/
def callsSample : List Call :=
  [.resolveOrBind "A" 0 .next, .bind "A" 1 4, .resolveOrBind "A" 0 .next, .bind "A" 0 5]

/-- In the sample the failed computation leaves its key vacant, and the second node is refused. -/
theorem run_writeOnce_sample :
    let run := (ofReferences rowsSample).run callsSample
    run.index.resolve "A" 0 = .ok 4 ∧ run.index.resolveOrBind "A" 0 (fun _ => .ok 6) =
        .ok ⟨4, false, run.index⟩ ∧
      (∃ index', run.index.bind "B" 1 7 = .ok index' ∧ index'.resolve "B" 1 = .ok 7) ∧
        run.index.bind "B" 0 7 = .error (.typeNotFound "B" 0) ∧
          ((Call.bind "A" 0 5).answer run.index).index = run.index := by
  obtain ⟨hresolve, -, -, htaken, hvacant, hunknown, hcall, -⟩ :=
    run_writeOnce rowsSample callsSample
  have hentry : ((ofReferences rowsSample).run callsSample).entries.lookup ("A", 0) = some 4 := by
    decide
  have hnone : ((ofReferences rowsSample).run callsSample).entries.lookup ("B", 1) = none := by
    decide
  have hknown : Known rowsSample "B" 1 := ⟨_, rfl, by decide⟩
  have hmissing : ¬Known rowsSample "B" 0 := by
    rintro ⟨row, hrow, hname⟩
    obtain rfl := Option.some.inj hrow
    revert hname
    decide
  obtain ⟨-, hbind, -, -⟩ := hvacant "B" 1 hknown hnone
  obtain ⟨-, hrefused, -⟩ := hunknown "B" 0 hmissing
  obtain ⟨-, hfound⟩ := htaken "A" 0 4 hentry
  refine ⟨(hresolve "A" 0 4).mpr hentry, hfound _, hbind 7, hrefused 7, ?_⟩
  refine (hcall (.bind "A" 0 5)).1 (.internal "node for 'A' at version 0 bound twice") ?_
  rw [Call.answer, run_enter_of_taken (resolve_eq_ok_iff.mp ((hresolve "A" 0 4).mpr hentry))]
  rfl

end SchemaEvolution.Index

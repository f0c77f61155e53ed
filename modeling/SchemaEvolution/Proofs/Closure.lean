import SchemaEvolution.Graph.Closure
import SchemaEvolution.Proofs.Index

/-!
# The closure is reachability

The search for everything that depends on some names is a sequence of steps, each of which looks
at one pending name. It ends on every index, circles included, and what it has collected by then
is exactly what reaches one of the names it started from.

## Main definitions

* `Index.Reaches`: a name refers to another directly, through others, or is the same
* `Index.SearchStep`: the search looks at one pending name
* `Index.Searching`: what holds of the collected and the pending names all along

## Main results

* `Index.wellFounded_searchStep`: no search goes on forever
* `Index.searchSteps_closeOver`: `closeOver` is where the steps lead to
* `Index.mem_closure_iff`: the closure is reachability
-/

namespace SchemaEvolution

theorem NameSet.mem_ofNames {names : List String} {name : String} :
    name ∈ NameSet.ofNames names ↔ name ∈ names := by
  have hadd : name ∈ NameSet.addAll SortedMap.empty names ↔
      name ∈ names ∨ name ∈ SortedMap.empty.keys := NameSet.mem_addAll
  exact hadd.trans (or_iff_left nofun)

namespace Index

/-- **A name reaches another** through references at a version, be it through none. -/
def Reaches (index : Index) (version : Nat) : String → String → Prop :=
  Relation.ReflTransGen fun name other => other ∈ index.references name version

/-- What the search has collected, and what it still has to look at. -/
abbrev SearchState := NameSet × List String

/-- **The search looks at one pending name**: it has no new dependents, or they are collected and
become pending themselves. -/
inductive SearchStep (index : Index) (version : Nat) : SearchState → SearchState → Prop
  | skip {set : NameSet} {name : String} {pending : List String}
      (hnone : index.newDependents version set name = []) :
      SearchStep index version (set, name :: pending) (set, pending)
  | grow {set : NameSet} {name : String} {pending : List String}
      (hsome : index.newDependents version set name ≠ []) :
      SearchStep index version (set, name :: pending)
        (set.addAll (index.newDependents version set name),
          index.newDependents version set name ++ pending)

/-- **What holds all along the search**: whatever is collected reaches the seed, and only pending
names may have dependents that are not collected. -/
structure Searching (index : Index) (version : Nat) (seed : List String) (state : SearchState) :
    Prop where
  reaches : ∀ name ∈ state.1, ∃ target ∈ seed, index.Reaches version name target
  seed : ∀ name ∈ seed, name ∈ state.1
  pending : ∀ name ∈ state.2, name ∈ state.1
  frontier : ∀ name ∈ state.1, name ∈ state.2 ∨
    ∀ other ∈ index.dependents name version, other ∈ state.1

variable {index : Index} {version : Nat} {seed : List String} {state state' : SearchState}

theorem mem_newDependents {set : NameSet} {name other : String} :
    other ∈ index.newDependents version set name ↔
      other ∈ index.dependents name version ∧ other ∉ set := by
  simp [newDependents]

/-- **No search goes on forever**: each step leaves fewer names outside, or as many and fewer
pending ones. -/
theorem wellFounded_searchStep (index : Index) (version : Nat) :
    WellFounded (flip (index.SearchStep version)) := by
  have hlex := (Prod.lex Nat.lt_wfRel Nat.lt_wfRel).wf
  refine Subrelation.wf ?_ (InvImage.wf (fun state : SearchState =>
    ((index.outside version state.1).length, state.2.length)) hlex)
  intro after before hstep
  cases hstep with
  | skip hnone => exact Prod.Lex.right _ (Nat.lt_succ_self _)
  | grow hsome => exact Prod.Lex.left _ _ (outside_lt hsome)

/-- **The search ends where `closeOver` says**, with nothing pending. -/
theorem searchSteps_closeOver (index : Index) (version : Nat) (set : NameSet)
    (pending : List String) :
    Relation.ReflTransGen (index.SearchStep version) (set, pending)
      (index.closeOver version set pending, []) := by
  fun_induction closeOver index version set pending with
  | case1 set => exact .refl
  | case2 set name pending ih =>
    by_cases hnone : index.newDependents version set name = []
    · rw [hnone] at ih ⊢
      exact .head (.skip hnone) ih
    · exact .head (.grow hnone) ih

/-! ## The invariant -/

theorem searching_start (index : Index) (version : Nat) (seed : List String) :
    Searching index version seed (.ofNames seed, seed) where
  reaches name hname := ⟨name, NameSet.mem_ofNames.mp hname, .refl⟩
  seed _ hname := NameSet.mem_ofNames.mpr hname
  pending _ hname := NameSet.mem_ofNames.mpr hname
  frontier _ hname := .inl (NameSet.mem_ofNames.mp hname)

theorem Searching.step (h : Searching index version seed state)
    (hstep : index.SearchStep version state state') : Searching index version seed state' := by
  cases hstep with
  | @skip set looked pending hnone =>
    refine ⟨h.reaches, h.seed, fun name hname => h.pending name (List.mem_cons_of_mem _ hname), ?_⟩
    intro name hname
    rcases h.frontier name hname with hpending | hclosed
    · rcases List.mem_cons.mp hpending with rfl | hpending
      · refine .inr fun other hother => by_contra fun hnew => ?_
        have hmem := mem_newDependents.mpr ⟨hother, hnew⟩
        rw [hnone] at hmem
        cases hmem
      · exact .inl hpending
    · exact .inr hclosed
  | @grow set looked pending hsome =>
    have hadd : ∀ name, name ∈ set.addAll (index.newDependents version set looked) ↔
        name ∈ index.newDependents version set looked ∨ name ∈ set := fun _ => NameSet.mem_addAll
    refine ⟨fun name hname => ?_, fun name hname => ?_, fun name hname => ?_,
      fun name hname => ?_⟩
    · rcases (hadd name).mp hname with hnew | hold
      · obtain ⟨hdependent, -⟩ := mem_newDependents.mp hnew
        obtain ⟨target, htarget, hreach⟩ := h.reaches looked (h.pending looked List.mem_cons_self)
        exact ⟨target, htarget, .head (mem_dependents_iff.mp hdependent) hreach⟩
      · exact h.reaches name hold
    · exact (hadd name).mpr (.inr (h.seed name hname))
    · rcases List.mem_append.mp hname with hnew | hold
      · exact (hadd name).mpr (.inl hnew)
      · exact (hadd name).mpr (.inr (h.pending name (List.mem_cons_of_mem _ hold)))
    · rcases (hadd name).mp hname with hnew | hold
      · exact .inl (List.mem_append_left _ hnew)
      · rcases h.frontier name hold with hpending | hclosed
        · rcases List.mem_cons.mp hpending with rfl | hpending
          · refine .inr fun other hother => (hadd other).mpr ?_
            by_cases hother' : other ∈ set
            · exact .inr hother'
            · exact .inl (mem_newDependents.mpr ⟨hother, hother'⟩)
          · exact .inl (List.mem_append_right _ hpending)
        · exact .inr fun other hother => (hadd other).mpr (.inr (hclosed other hother))

theorem Searching.run (h : Searching index version seed state)
    (hrun : Relation.ReflTransGen (index.SearchStep version) state state') :
    Searching index version seed state' := by
  induction hrun with
  | refl => exact h
  | tail _ hstep ih => exact ih.step hstep

/-- **The closure is reachability**: it holds exactly the names that reach one of the seed. -/
theorem mem_closure_iff {name : String} :
    name ∈ index.closure version seed ↔ ∃ target ∈ seed, index.Reaches version name target := by
  have h := (searching_start index version seed).run (searchSteps_closeOver index version _ seed)
  refine ⟨h.reaches name, ?_⟩
  rintro ⟨target, htarget, hreach⟩
  -- back along the path: nothing is pending in the end, so dependents are collected
  induction hreach using Relation.ReflTransGen.head_induction_on with
  | refl => exact h.seed target htarget
  | head hrefers _ ih =>
    have hclosed := (h.frontier _ ih).resolve_left List.not_mem_nil
    exact hclosed _ (mem_dependents_iff.mpr hrefers)

end Index

end SchemaEvolution

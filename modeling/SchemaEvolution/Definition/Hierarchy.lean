import SchemaEvolution.OrderedMap

/-!
# Hierarchies of interfaces

Interfaces extend other interfaces. One depth-first walk answers both questions about a
hierarchy: whether it has a circle, and in which order an interface inherits.

## Main definitions

* `Hierarchy`: every interface with those that it extends directly
* `Hierarchy.walk`: a depth-first walk, parents first, that stops at a circle
* `Hierarchy.circle?`: a circle, if there is one
* `Hierarchy.ancestry`: an interface and all that it extends, parents first

## Main results

* `Hierarchy.unwalked_lt`: the names off the path become fewer with each step down, so the
  walk ends on every hierarchy
-/

namespace SchemaEvolution

/-- **A hierarchy**: every interface with those that it extends directly. -/
abbrev Hierarchy := OrderedMap (List String)

namespace Hierarchy

/-- The interfaces that one extends directly. -/
def parents (hierarchy : Hierarchy) (name : String) : List String :=
  (OrderedMap.get? hierarchy name).getD []

/-- The declared names that are not on a path. -/
def unwalked (hierarchy : Hierarchy) (path : List String) : List String :=
  (OrderedMap.keys hierarchy).filter fun name => !path.contains name

theorem unwalked_append (hierarchy : Hierarchy) (path : List String) (name : String) :
    hierarchy.unwalked (path ++ [name]) =
      (hierarchy.unwalked path).filter fun other => !(other == name) := by
  simp only [unwalked, List.filter_filter]
  congr 1
  funext other
  by_cases same : other = name <;> simp [same]

/-- A step down to a declared name off the path leaves fewer names off the path. -/
theorem unwalked_lt {hierarchy : Hierarchy} {path : List String} {name : String}
    (offPath : ¬path.contains name) (declared : name ∈ hierarchy) :
    (hierarchy.unwalked (path ++ [name])).length < (hierarchy.unwalked path).length := by
  rw [unwalked_append, List.length_filter_lt_length_iff_exists]
  refine ⟨name, List.mem_filter.mpr ⟨declared, ?_⟩, by simp⟩
  simpa using offPath

/-- **The walk.** It goes through `names` in order, into the parents of each before the
name itself, and passes by a name that was done before. `path` leads from the start of the
walk to the interface whose parents are walked. The result lists what is done, in the order
in which it was done; a name on its own path is a circle, which is the error. -/
def walk (hierarchy : Hierarchy) (path : List String) :
    (names : List String) → (done : List String) → Except (List String) (List String)
  | [], done => .ok done
  | name :: names, done =>
    if done.contains name then walk hierarchy path names done
    else if _onPath : path.contains name then
      .error (path.dropWhile (· != name) ++ [name])
    else if _declared : name ∈ hierarchy then
      match walk hierarchy (path ++ [name]) (hierarchy.parents name) done with
      | .error circle => .error circle
      | .ok done => walk hierarchy path names (done ++ [name])
    else walk hierarchy path names done
  termination_by names => ((hierarchy.unwalked path).length, names.length)
  decreasing_by
  · exact Prod.Lex.right _ (Nat.lt_succ_self _)
  · exact Prod.Lex.left _ _ (unwalked_lt _onPath _declared)
  · exact Prod.Lex.right _ (Nat.lt_succ_self _)
  · exact Prod.Lex.right _ (Nat.lt_succ_self _)

/-- **A circle of the hierarchy**, if there is one: a path that ends with its first name. -/
def circle? (hierarchy : Hierarchy) : Option (List String) :=
  match hierarchy.walk [] (OrderedMap.keys hierarchy) [] with
  | .error circle => some circle
  | .ok _ => none

/-- **An interface and all that it extends**, each once, parents first; none if there is a
circle among them. -/
def ancestry (hierarchy : Hierarchy) (name : String) : Except (List String) (List String) :=
  hierarchy.walk [] [name] []

end Hierarchy

end SchemaEvolution

import SchemaEvolution.OrderedMap
import SchemaEvolution.SortedMap

/-!
# References, read the other way round

A table of references says what each name refers to. In one pass over its names it is turned into a
table that says who refers to each name: every name is listed once under all that it refers to,
however often it does. Since the names are taken in order, so are those of each list.

## Main definitions

* `References`, `References.listed`: names with the names that are listed under them
* `References.invert`: the table read the other way round

## Main results

* `References.listed_invert`: who is listed under a name once all names are passed
-/

namespace SchemaEvolution

/-- **A table of references**: under each name the names that it refers to. -/
abbrev References := SortedMap (List String)

namespace References

/-- The names that are listed under a name. -/
def listed (table : References) (name : String) : List String := (table.get? name).getD []

/-- The table with a source under one more name, unless it is listed there already. -/
def enter (table : References) (source name : String) : References :=
  table.insert name (addUnlessSeen (table.listed name) source)

/-- The table with a source under all names that it refers to. -/
def enterAll (table : References) (source : String) (targets : List String) : References :=
  targets.foldl (fun table target => table.enter source target) table

/-- **The table read the other way round**, filled in one pass over its names. -/
def invert (table : References) : References :=
  table.entries.foldl (fun inverse entry => inverse.enterAll entry.1 entry.2) ∅

variable {table : References} {source name other : String}

theorem listed_enter : (table.enter source name).listed other =
    if other = name then addUnlessSeen (table.listed name) source else table.listed other := by
  rw [enter, listed, SortedMap.get?_insert]
  split
  · rfl
  · rfl

/-- A source that refers to a name is listed there, be it for one reference or for many. -/
theorem listed_enterAll (targets : List String) : (table.enterAll source targets).listed name =
    if name ∈ targets then addUnlessSeen (table.listed name) source else table.listed name := by
  induction targets generalizing table with
  | nil => rfl
  | cons first rest ih =>
    have hstep : table.enterAll source (first :: rest) =
        (table.enter source first).enterAll source rest := rfl
    rw [hstep, ih, listed_enter]
    by_cases hfirst : name = first
    · subst hfirst
      have hlisted : source ∈ addUnlessSeen (table.listed name) source := by
        unfold addUnlessSeen
        split <;> simp_all
      rw [if_pos rfl, addUnlessSeen_of_mem hlisted, ite_self, if_pos List.mem_cons_self]
    · rw [if_neg hfirst]
      simp only [List.mem_cons, hfirst, false_or]

/-- Names that are not listed yet come behind those that are, in the order of the pass. -/
theorem listed_foldl {entries : List (String × List String)}
    (hdistinct : (entries.map Prod.fst).Nodup)
    (hnew : ∀ entry ∈ entries, entry.1 ∉ table.listed name) :
    (entries.foldl (fun inverse entry => inverse.enterAll entry.1 entry.2) table).listed name =
      table.listed name ++ (entries.filter fun entry => entry.2.contains name).map Prod.fst := by
  induction entries generalizing table with
  | nil => exact (List.append_nil _).symm
  | cons entry rest ih =>
    obtain ⟨hfirst, hnew⟩ := List.forall_mem_cons.mp hnew
    obtain ⟨hother, hdistinct⟩ := List.nodup_cons.mp hdistinct
    rw [List.foldl_cons]
    by_cases hrefers : name ∈ entry.2
    · have hentered : (table.enterAll entry.1 entry.2).listed name =
          table.listed name ++ [entry.1] := by
        rw [listed_enterAll, if_pos hrefers, addUnlessSeen_of_not_mem hfirst]
      rw [ih hdistinct fun later hlater => ?_, hentered, List.append_assoc, List.filter_cons,
        if_pos (List.contains_iff_mem.mpr hrefers), List.map_cons, List.singleton_append]
      -- no name comes twice, so the later ones are not listed by now
      rw [hentered, List.mem_append, List.mem_singleton, not_or]
      exact ⟨hnew later hlater, fun hsame => hother (hsame ▸ List.mem_map_of_mem hlater)⟩
    · have hkept : (table.enterAll entry.1 entry.2).listed name = table.listed name := by
        rw [listed_enterAll, if_neg hrefers]
      rw [ih hdistinct fun later hlater => hkept.symm ▸ hnew later hlater, hkept, List.filter_cons,
        if_neg (mt List.contains_iff_mem.mp hrefers)]

/-- **The inverted table lists the names that refer to one**, in their order. -/
theorem listed_invert : table.invert.listed name =
    (table.entries.filter fun entry => entry.2.contains name).map Prod.fst :=
  (listed_foldl table.distinct fun _ _ => List.not_mem_nil).trans (List.nil_append _)

end References

end SchemaEvolution

import SchemaEvolution.Proofs.InterfaceFields

/-!
# Circles among interfaces

The search for a circle goes through all interfaces with one list of those that are done and one
path. It ends on every hierarchy, since each interface is entered once. Where it stops, the path
closes to a circle whose names do not repeat, and where it gets through, there is none. Then the
fields of an interface can be collected by a recursion that goes into the interfaces above it each
time anew and keeps no record of those that it has been to: it comes to an end, and it yields what
is inherited from the ancestry, in which each interface occurs once.

## Main definitions

* `Hierarchy.IsCircle`: a circle of interfaces, none of them twice
* `Hierarchy.Searches`: the search for a circle, call by call
* `Definition.Collects`: the recursion that collects fields without a record

## Main results

* `Hierarchy.isCircle_of_walk`: where the search stops there is a circle
* `Hierarchy.exists_searches`: the search ends after as many calls as there are entries at most
* `Hierarchy.circle?_eq_none_iff_visits`: the recursion ends exactly where no circle is found
* `Definition.collects_iff`: the recursion yields what is inherited from the ancestry
* `Definition.circles_exact`: circles are found exactly, and without them fields can be collected
-/

namespace SchemaEvolution

namespace Hierarchy

variable {hierarchy : Hierarchy} {name : String} {path names done circle visited : List String}

/-! ## Circles -/

/-- **A circle of interfaces.** -/
structure IsCircle (hierarchy : Hierarchy) (circle : List String) : Prop where
  /-- Each name extends the next one directly. -/
  linked : circle.IsChain hierarchy.Extends
  /-- There is a next one, and the last name is the first one. -/
  closed : ∃ name between, circle = name :: (between ++ [name])
  /-- No other name repeats. -/
  once : circle.tail.Nodup

/-- **Where the walk stops there is a circle**, if the path is one of interfaces that extend each
other, none of them twice, down to the names that are walked. -/
theorem isCircle_of_walk (h : hierarchy.walk path names done = .error circle) (hpath : path.Nodup)
    (hlinked : ∀ name ∈ names, (path ++ [name]).IsChain hierarchy.Extends) :
    hierarchy.IsCircle circle := by
  fun_induction walk hierarchy path names done with
  | case1 => cases h
  | case2 path name names done _ ih =>
    exact ih h hpath fun other hother => hlinked other (List.mem_cons_of_mem _ hother)
  | case3 path name names done _ honPath =>
    obtain rfl := Except.error.inj h
    obtain ⟨before, between, rfl, hbefore⟩ :=
      List.eq_append_cons_of_mem (List.contains_iff_mem.mp honPath)
    have hdrop : (before ++ name :: between).dropWhile (· != name) = name :: between := by
      rw [List.dropWhile_append_of_pos fun other hother => ?_]
      · simp
      · exact bne_iff_ne.mpr fun hsame => hbefore (hsame ▸ hother)
    have hchain := hlinked name List.mem_cons_self
    rw [List.append_assoc] at hchain
    rw [hdrop]
    refine ⟨hchain.suffix (List.suffix_append _ _), ⟨name, between, rfl⟩, ?_⟩
    obtain ⟨hfresh, hbetween⟩ := List.nodup_cons.mp (List.nodup_append.mp hpath).2.1
    have honce := List.Nodup.concat hfresh hbetween
    rwa [List.concat_eq_append] at honce
  | case4 path name names done _ hoff _ found hwalk ih =>
    obtain rfl := Except.error.inj h
    have hoff : name ∉ path := fun hmem => hoff (List.contains_iff_mem.mpr hmem)
    refine ih hwalk ?_ fun parent hparent => ?_
    · have hnodup := List.Nodup.concat hoff hpath
      rwa [List.concat_eq_append] at hnodup
    · rw [List.append_assoc]
      exact List.isChain_append_cons_cons.mpr
        ⟨hlinked name List.mem_cons_self, hparent, .singleton parent⟩
  | case5 path name names done _ _ _ _ _ _ ih =>
    exact ih h hpath fun other hother => hlinked other (List.mem_cons_of_mem _ hother)
  | case6 path name names done _ _ _ ih =>
    exact ih h hpath fun other hother => hlinked other (List.mem_cons_of_mem _ hother)

theorem isCircle_of_circle? (h : hierarchy.circle? = some circle) : hierarchy.IsCircle circle := by
  unfold circle? at h
  split at h
  · rename_i hwalk
    obtain rfl := Option.some.inj h
    exact isCircle_of_walk hwalk List.nodup_nil fun name _ => .singleton name
  · cases h

/-- **A circle is found exactly if some interface extends itself**, be it through others. -/
theorem exists_circle?_iff : (∃ circle, hierarchy.circle? = some circle) ↔
    ∃ name, Relation.TransGen hierarchy.Extends name name := by
  rw [← Option.isSome_iff_exists, ← Option.ne_none_iff_isSome, Ne, circle?_eq_none_iff, Acyclic,
    not_forall_not]

/-! ## The search, call by call -/

/-- **The search for a circle, call by call.** It goes through `names` with the interfaces that are
`done` and the `path` on which it has come to them. The last two arguments are what comes out of it
and the number of calls that are made. -/
inductive Searches (hierarchy : Hierarchy) :
    List String → List String → List String → Except (List String) (List String) → Nat → Prop
  | nil {path done : List String} : Searches hierarchy path [] done (.ok done) 0
  | known {path names done : List String} {name : String}
      {out : Except (List String) (List String)} {calls : Nat} (hdone : name ∈ done)
      (hrest : Searches hierarchy path names done out calls) :
      Searches hierarchy path (name :: names) done out (calls + 1)
  | onPath {path names done : List String} {name : String} (hnew : name ∉ done)
      (hpath : name ∈ path) :
      Searches hierarchy path (name :: names) done
        (.error (path.dropWhile (· != name) ++ [name])) 1
  | undeclared {path names done : List String} {name : String}
      {out : Except (List String) (List String)} {calls : Nat} (hnew : name ∉ done)
      (hoff : name ∉ path) (hnone : name ∉ hierarchy)
      (hrest : Searches hierarchy path names done out calls) :
      Searches hierarchy path (name :: names) done out (calls + 1)
  | stop {path names done circle : List String} {name : String} {calls : Nat}
      (hnew : name ∉ done) (hoff : name ∉ path) (hdeclared : name ∈ hierarchy)
      (hparents : Searches hierarchy (path ++ [name]) (hierarchy.parents name) done
        (.error circle) calls) :
      Searches hierarchy path (name :: names) done (.error circle) (calls + 1)
  | down {path names done later : List String} {name : String}
      {out : Except (List String) (List String)} {calls rest : Nat} (hnew : name ∉ done)
      (hoff : name ∉ path) (hdeclared : name ∈ hierarchy)
      (hparents : Searches hierarchy (path ++ [name]) (hierarchy.parents name) done (.ok later)
        calls)
      (hrest : Searches hierarchy path names (later ++ [name]) out rest) :
      Searches hierarchy path (name :: names) done out (calls + rest + 1)

/-- The number of calls that are still to come from interfaces that have not been entered. -/
def pending (hierarchy : Hierarchy) (entered : List String) : Nat :=
  ((hierarchy.unwalked entered).map fun name => (hierarchy.parents name).length).sum

theorem pending_congr {entered entered' : List String}
    (h : ∀ name, name ∈ entered ↔ name ∈ entered') :
    hierarchy.pending entered = hierarchy.pending entered' := by
  have hcontains : ∀ name, entered.contains name = entered'.contains name := fun name => by
    rw [Bool.eq_iff_iff, List.contains_iff_mem, List.contains_iff_mem, h]
  simp only [pending, unwalked, hcontains]

/-- An interface that is entered makes its calls, and no others. -/
theorem pending_eq_add {entered : List String} (hnew : name ∉ entered)
    (hdeclared : name ∈ hierarchy) : hierarchy.pending entered =
      (hierarchy.parents name).length + hierarchy.pending (entered ++ [name]) := by
  have hmem : name ∈ hierarchy.unwalked entered :=
    List.mem_filter.mpr ⟨hdeclared, by simpa using hnew⟩
  have hnodup : (hierarchy.unwalked entered).Nodup := hierarchy.distinct.filter _
  rw [pending, pending, unwalked_append, ← List.sum_map_erase _ hmem, hnodup.erase_eq_filter]
  rfl

/-- What is pending after a search. -/
def pendingAfter (hierarchy : Hierarchy) (path : List String) :
    Except (List String) (List String) → Nat
  | .ok done => hierarchy.pending (done ++ path)
  | .error _ => 0

/-- **The search ends**, and makes no other calls than those for its names and those that are
pending when it starts. -/
theorem exists_searches_add (hierarchy : Hierarchy) (path names done : List String) : ∃ calls,
    hierarchy.Searches path names done (hierarchy.walk path names done) calls ∧
      calls + hierarchy.pendingAfter path (hierarchy.walk path names done) ≤
        names.length + hierarchy.pending (done ++ path) := by
  -- an interface that is entered: neither done nor on the path
  have henter : ∀ {path done : List String} {name : String}, ¬done.contains name = true →
      ¬path.contains name = true → name ∈ hierarchy →
      hierarchy.pending (done ++ path) =
        (hierarchy.parents name).length + hierarchy.pending (done ++ (path ++ [name])) := by
    intro path done name hnew hoff hdeclared
    rw [List.contains_iff_mem] at hnew hoff
    rw [← List.append_assoc]
    exact pending_eq_add (fun hmem => (List.mem_append.mp hmem).elim hnew hoff) hdeclared
  fun_induction walk hierarchy path names done with
  | case1 path done => exact ⟨0, .nil, by simp [pendingAfter]⟩
  | case2 path name names done hknown ih =>
    obtain ⟨calls, hsearches, hcalls⟩ := ih
    refine ⟨calls + 1, .known (List.contains_iff_mem.mp hknown) hsearches, ?_⟩
    rw [List.length_cons]
    omega
  | case3 path name names done hnew honPath =>
    rw [List.contains_iff_mem] at hnew honPath
    refine ⟨1, .onPath hnew honPath, ?_⟩
    rw [List.length_cons, pendingAfter]
    omega
  | case4 path name names done hnew hoff hdeclared circle hwalk ih =>
    obtain ⟨calls, hsearches, hcalls⟩ := ih
    have hpending := henter hnew hoff hdeclared
    rw [hwalk] at hsearches hcalls
    rw [List.contains_iff_mem] at hnew hoff
    refine ⟨calls + 1, .stop hnew hoff hdeclared hsearches, ?_⟩
    rw [List.length_cons, pendingAfter]
    rw [pendingAfter] at hcalls
    omega
  | case5 path name names done hnew hoff hdeclared later hwalk ihparents ihnames =>
    obtain ⟨calls, hsearches, hcalls⟩ := ihparents
    obtain ⟨rest, hlater, hrest⟩ := ihnames
    have hpending := henter hnew hoff hdeclared
    have hmoves : hierarchy.pending (later ++ (path ++ [name])) =
        hierarchy.pending (later ++ [name] ++ path) :=
      pending_congr fun other => by simp only [List.mem_append]; tauto
    rw [hwalk, pendingAfter] at hcalls
    rw [hwalk] at hsearches
    rw [List.contains_iff_mem] at hnew hoff
    refine ⟨calls + rest + 1, .down hnew hoff hdeclared hsearches hlater, ?_⟩
    rw [List.length_cons]
    omega
  | case6 path name names done hnew hoff hundeclared ih =>
    obtain ⟨calls, hsearches, hcalls⟩ := ih
    rw [List.contains_iff_mem] at hnew hoff
    refine ⟨calls + 1, .undeclared hnew hoff hundeclared hsearches, ?_⟩
    rw [List.length_cons]
    omega

theorem map_parents_keys (hierarchy : Hierarchy) :
    (OrderedMap.keys hierarchy).map hierarchy.parents = OrderedMap.values hierarchy := by
  rw [OrderedMap.keys, OrderedMap.values, List.map_map]
  refine List.map_congr_left fun entry hentry => ?_
  have hget : OrderedMap.get? hierarchy entry.1 = some entry.2 :=
    OrderedMap.get?_eq_some_iff.mpr hentry
  simp [parents, hget]

/-- **The search for a circle ends**: it makes one call for each interface and one for each entry
of an `extends` list at most. -/
theorem exists_searches (hierarchy : Hierarchy) : ∃ calls,
    hierarchy.Searches [] (OrderedMap.keys hierarchy) []
        (hierarchy.walk [] (OrderedMap.keys hierarchy) []) calls ∧
      calls ≤ OrderedMap.size hierarchy +
        ((OrderedMap.values hierarchy).map List.length).sum := by
  obtain ⟨calls, hsearches, hcalls⟩ :=
    hierarchy.exists_searches_add [] (OrderedMap.keys hierarchy) []
  refine ⟨calls, hsearches, ?_⟩
  have hall : hierarchy.pending [] = ((OrderedMap.values hierarchy).map List.length).sum := by
    have hunwalked : hierarchy.unwalked [] = OrderedMap.keys hierarchy :=
      List.filter_eq_self.mpr fun _ _ => rfl
    rw [← map_parents_keys, List.map_map, pending, hunwalked]
    rfl
  have hsize : (OrderedMap.keys hierarchy).length = OrderedMap.size hierarchy := List.length_map _
  rw [List.append_nil, hall, hsize] at hcalls
  omega

/-! ## Recursion without a record -/

/-- Where the recursion ends, no chain of extensions goes on forever. -/
theorem Visits.acc (h : hierarchy.Visits names visited) :
    ∀ name ∈ names, Acc (flip hierarchy.Extends) name := by
  induction h with
  | nil => exact fun _ hname => absurd hname List.not_mem_nil
  | cons _ _ ihparents ihrest => exact List.forall_mem_cons.mpr ⟨⟨_, ihparents⟩, ihrest⟩

/-- **The recursion into all interfaces above comes to an end** from everywhere exactly if no
circle is found. -/
theorem circle?_eq_none_iff_visits :
    hierarchy.circle? = none ↔ ∀ name, ∃ visited, hierarchy.Visits [name] visited := by
  constructor
  · intro hnone name
    have hacc : Acc (flip hierarchy.Extends) name := by
      by_cases hdeclared : name ∈ hierarchy
      · unfold circle? at hnone
        split at hnone
        · cases hnone
        · rename_i hwalk
          obtain ⟨hsettled, -, hall⟩ := settled_of_walk hwalk .nil
          exact hsettled.acc (hall name hdeclared hdeclared)
      · exact ⟨name, fun parent hextends => absurd (mem_of_extends hextends) hdeclared⟩
    obtain ⟨above, habove⟩ := exists_visits_of_acc hacc
    exact ⟨_, .cons habove .nil⟩
  · intro hvisits
    refine circle?_eq_none_iff.mpr fun name => ?_
    obtain ⟨visited, hvisited⟩ := hvisits name
    exact not_transGen_of_acc (hvisited.acc name List.mem_cons_self)

end Hierarchy

/-! ## Collecting fields -/

namespace Definition

section Collecting

variable {hierarchy : Hierarchy} {own : OrderedMap Layout} {name : String}
  {names visited done : List String} {all out : Layout} {result result' : Except SchemaError Layout}

/-- **The recursion that collects fields**, without a record of the interfaces that it has been to.
For each of the names it collects the fields of those that the interface extends, and then enters
those of the interface itself; the first failure is what comes out. An undeclared name extends
nothing and has no fields. -/
inductive Collects (hierarchy : Hierarchy) (own : OrderedMap Layout) :
    List String → Layout → Except SchemaError Layout → Prop
  | nil {all : Layout} : Collects hierarchy own [] all (.ok all)
  | above {name : String} {names : List String} {all : Layout} {e : SchemaError}
      (hparents : Collects hierarchy own (hierarchy.parents name) all (.error e)) :
      Collects hierarchy own (name :: names) all (.error e)
  | clash {name : String} {names : List String} {all inherited : Layout} {e : SchemaError}
      (hparents : Collects hierarchy own (hierarchy.parents name) all (.ok inherited))
      (hfields : inheritFields name ((own.get? name).getD ∅).entries inherited = .error e) :
      Collects hierarchy own (name :: names) all (.error e)
  | cons {name : String} {names : List String} {all inherited middle : Layout}
      {result : Except SchemaError Layout}
      (hparents : Collects hierarchy own (hierarchy.parents name) all (.ok inherited))
      (hfields : inheritFields name ((own.get? name).getD ∅).entries inherited = .ok middle)
      (hrest : Collects hierarchy own names middle result) :
      Collects hierarchy own (name :: names) all result

/-- At most one thing comes out of the recursion. -/
theorem Collects.unique (h : Collects hierarchy own names all result)
    (h' : Collects hierarchy own names all result') : result = result' := by
  induction h generalizing result' with
  | nil => cases h'; rfl
  | above _ ih =>
    cases h' with
    | above hparents => exact congrArg _ (Except.error.inj (ih hparents))
    | clash hparents => cases ih hparents
    | cons hparents => cases ih hparents
  | clash _ hfields ih =>
    cases h' with
    | above hparents => cases ih hparents
    | clash hparents hfields' =>
      obtain rfl := Except.ok.inj (ih hparents)
      rw [← hfields, hfields']
    | cons hparents hfields' =>
      obtain rfl := Except.ok.inj (ih hparents)
      rw [hfields] at hfields'
      cases hfields'
  | cons _ hfields _ ih ihrest =>
    cases h' with
    | above hparents => cases ih hparents
    | clash hparents hfields' =>
      obtain rfl := Except.ok.inj (ih hparents)
      rw [hfields] at hfields'
      cases hfields'
    | cons hparents hfields' hrest =>
      obtain rfl := Except.ok.inj (ih hparents)
      obtain rfl := Except.ok.inj (hfields.symm.trans hfields')
      exact ihrest hrest

theorem inheritAll_append (own : OrderedMap Layout) (first rest : List String) (all : Layout) :
    inheritAll own (first ++ rest) all = inheritAll own first all >>= inheritAll own rest := by
  induction first generalizing all with
  | nil => rfl
  | cons name first ih =>
    rw [List.cons_append, inheritAll, inheritAll, bind_assoc]
    exact congrArg _ (funext ih)

/-- **The recursion enters what is visited**, with all repetitions. -/
theorem collects_of_visits (h : hierarchy.Visits names visited) (all : Layout) :
    Collects hierarchy own names all (inheritAll own visited all) := by
  induction h generalizing all with
  | nil => exact .nil
  | @cons name names above rest _ _ ihparents ihrest =>
    have hparents := ihparents all
    rw [inheritAll_append]
    cases habove : inheritAll own above all with
    | error e => exact .above (habove ▸ hparents)
    | ok inherited =>
      rw [habove] at hparents
      rw [ok_bind, inheritAll]
      cases hfields : inheritFields name ((own.get? name).getD ∅).entries inherited with
      | error e => exact .clash hparents hfields
      | ok middle => exact .cons hparents hfields (ihrest middle)

/-- The fields of an interface have been entered. -/
def Entered (own : OrderedMap Layout) (all : Layout) (name : String) : Prop :=
  ∀ entry ∈ ((own.get? name).getD ∅).entries, all.get? entry.1 = some entry.2

/-- Fields that have been entered change nothing when they are entered again. -/
theorem inheritFields_of_entered {interface : String} {fields : List (String × TypeRef)}
    (h : ∀ entry ∈ fields, all.get? entry.1 = some entry.2) :
    inheritFields interface fields all = .ok all := by
  induction fields with
  | nil => rfl
  | cons entry rest ih =>
    obtain ⟨hfirst, hrest⟩ := List.forall_mem_cons.mp h
    rw [inheritFields, hfirst]
    simp only [if_pos]
    exact ih hrest

/-- What is entered stays, and the fields of the interface are with it. -/
theorem entered_of_inheritFields
    (h : inheritFields name ((own.get? name).getD ∅).entries all = .ok out) :
    Entered own out name ∧ ∀ other, Entered own all other → Entered own out other := by
  have hjoins := (inheritFields_spec name ((own.get? name).getD ∅).entries all).2 out h
  exact ⟨fun entry hentry => (hjoins entry.1 entry.2).mpr (.inr hentry),
    fun other hother entry hentry => (hjoins entry.1 entry.2).mpr (.inl (hother entry hentry))⟩

/-- **Repetitions may be left out**: an interface that is visited again adds nothing. -/
theorem inheritAll_of_repeats (visited : List String)
    (hdone : ∀ name ∈ done, Entered own all name) :
    ∃ fresh, visited.foldl addUnlessSeen done = done ++ fresh ∧
      inheritAll own visited all = inheritAll own fresh all := by
  induction visited generalizing done all with
  | nil => exact ⟨[], (List.append_nil done).symm, rfl⟩
  | cons name rest ih =>
    rw [List.foldl_cons, inheritAll]
    by_cases hname : name ∈ done
    · rw [addUnlessSeen_of_mem hname, inheritFields_of_entered (hdone name hname), ok_bind]
      exact ih hdone
    · rw [addUnlessSeen_of_not_mem hname]
      cases hfields : inheritFields name ((own.get? name).getD ∅).entries all with
      | error e =>
        obtain ⟨fresh, hfresh⟩ := prefix_foldl_addUnlessSeen rest (done ++ [name])
        refine ⟨name :: fresh, ?_, ?_⟩
        · rw [← hfresh, List.append_assoc, List.singleton_append]
        · rw [inheritAll, hfields]
          rfl
      | ok middle =>
        obtain ⟨hself, hkept⟩ := entered_of_inheritFields hfields
        have hentered : ∀ other ∈ done ++ [name], Entered own middle other := fun other hother =>
          (List.mem_append.mp hother).elim (fun hmem => hkept other (hdone other hmem))
            fun hlast => List.mem_singleton.mp hlast ▸ hself
        obtain ⟨fresh, hfresh, hrest⟩ := ih hentered
        refine ⟨name :: fresh, ?_, ?_⟩
        · rw [hfresh, List.append_assoc, List.singleton_append]
        · rw [inheritAll, hfields, ok_bind, hrest]
          rfl

/-- **The recursion yields what is inherited from the ancestry**, if no circle is found. -/
theorem collects_iff (hnone : hierarchy.circle? = none) (hclosed : hierarchy.Closed)
    (hname : name ∈ hierarchy) (hnames : hierarchy.ancestry name = .ok names) :
    Collects hierarchy own [name] ∅ result ↔ result = inheritAll own names ∅ := by
  obtain ⟨visited, hvisits⟩ := Hierarchy.circle?_eq_none_iff_visits.mp hnone name
  have hfold := Hierarchy.foldl_of_walk hnames (Hierarchy.circle?_eq_none_iff.mp hnone) hclosed
    (List.forall_mem_singleton.mpr hname) .nil hvisits
  have hnothing : ∀ name ∈ [], Entered own ∅ name := fun _ hmem => absurd hmem List.not_mem_nil
  obtain ⟨fresh, hfresh, hsame⟩ := inheritAll_of_repeats visited hnothing
  obtain rfl : names = fresh := hfold.symm.trans hfresh
  have hcollects : Collects hierarchy own [name] ∅ (inheritAll own visited ∅) :=
    collects_of_visits hvisits ∅
  rw [hsame] at hcollects
  constructor
  · exact fun h => h.unique hcollects
  · rintro rfl
    exact hcollects

end Collecting

/-! ## What is reported -/

section Reports

variable {config : Config} {catalog : Catalog} {circle : List String} {e : SchemaError}
  {own : OrderedMap Layout} {names : List String} {all : Layout}

/-- Fields that cannot be read are malformed or of an unknown type. -/
theorem ne_interfaceCycle_of_readFields {mention : String → Mention} {fields : OrderedMap String}
    (h : readFields catalog mention fields = .error e) : e ≠ .interfaceCycle circle := by
  obtain ⟨entry, -, hfield⟩ := OrderedMap.exists_of_traverse_eq_error h
  rcases bind_eq_error.mp hfield with hparse | ⟨ref, -, hknown⟩
  · obtain ⟨fault, rfl⟩ := TypeRef.exists_of_parse_eq_error hparse
    nofun
  · split at hknown
    · cases hknown
    · obtain rfl := Except.error.inj hknown
      nofun

/-- Fields that cannot be entered clash with others. -/
theorem ne_interfaceCycle_of_inheritAll (h : inheritAll own names all = .error e) :
    e ≠ .interfaceCycle circle := by
  have hfields : ∀ {interface : String} {fields : List (String × TypeRef)} {all : Layout},
      inheritFields interface fields all = .error e → e ≠ .interfaceCycle circle := by
    intro interface fields all h
    fun_induction inheritFields interface fields all with
    | case1 => cases h
    | case2 _ _ _ _ _ ih => exact ih h
    | case3 _ _ _ _ _ ih => exact ih h
    | case4 =>
      obtain rfl := Except.error.inj h
      nofun
  induction names generalizing all with
  | nil => cases h
  | cons name rest ih =>
    rcases bind_eq_error.mp h with hfirst | ⟨middle, -, hrest⟩
    · exact hfields hfirst
    · exact ih hrest

/-- Interfaces extend declared ones only exactly if the check of their lists succeeds. -/
theorem closed_iff_checkExtensions : (hierarchy config).Closed ↔
    checkExtensions config config.interfaces.entries = .ok () := by
  rw [checkExtensions_eq_ok_iff]
  constructor
  · intro hclosed entry hentry
    refine checkInterfaceNames_eq_ok_iff.mpr fun parent hparent => ?_
    refine OrderedMap.mem_map_iff.mp (hclosed entry.1 parent (extends_iff.mpr ?_))
    exact ⟨entry.2, OrderedMap.get?_eq_some_iff.mpr hentry, hparent⟩
  · intro hall
    refine closed_of_declared fun name written hwritten => ?_
    exact checkInterfaceNames_eq_ok_iff.mp (hall _ (OrderedMap.get?_eq_some_iff.mp hwritten))

/-- **Reading interfaces reports a circle exactly if one is found**, and reports that one. -/
theorem readInterfaces_eq_interfaceCycle_iff (h : (hierarchy config).Closed) :
    readInterfaces config catalog = .error (.interfaceCycle circle) ↔
      (hierarchy config).circle? = some circle := by
  rw [readInterfaces, closed_iff_checkExtensions.mp h, ok_bind]
  cases hcircle : (hierarchy config).circle? with
  | some found =>
    constructor
    · intro hread
      rw [SchemaError.interfaceCycle.inj (Except.error.inj hread)]
    · intro hfound
      rw [Option.some.inj hfound]
      rfl
  | none =>
    refine iff_of_false (fun hread => ?_) (Option.some_ne_none circle).symm
    rcases bind_eq_error.mp hread with hown | ⟨own, -, hread⟩
    · obtain ⟨entry, -, hfields⟩ := OrderedMap.exists_of_traverse_eq_error hown
      exact ne_interfaceCycle_of_readFields hfields rfl
    · obtain ⟨entry, -, hinterface⟩ := OrderedMap.exists_of_traverse_eq_error hread
      obtain ⟨names, hnames⟩ :=
        Hierarchy.exists_ancestry (Hierarchy.circle?_eq_none_iff.mp hcircle) entry.1
      rw [hnames] at hinterface
      rcases bind_eq_error.mp hinterface with hancestry | ⟨found, -, hall⟩
      · cases hancestry
      · rcases bind_eq_error.mp hall with hinherit | ⟨all, -, hdone⟩
        · exact ne_interfaceCycle_of_inheritAll hinherit rfl
        · cases hdone

end Reports

/-- **Circles are found exactly, and without them fields can be collected.** In a schema whose
interfaces extend declared ones only, the search over all interfaces finds a circle exactly if some
interface extends itself, be it through others. What it finds is a circle in which no name repeats
but the first one at the end, and exactly that is reported, joined by arrows. The search always
ends, after one call for each interface and each entry of an `extends` list at most. It finds
nothing exactly if the recursion through all interfaces above ends from everywhere without a record
of those that it has been to. Then, whatever fields the interfaces declare, exactly one thing comes
out of the recursion that collects them, and that is what is inherited from the ancestry. -/
theorem circles_exact {config : Config} (h : (hierarchy config).Closed) :
    ((∃ circle, (hierarchy config).circle? = some circle) ↔
      ∃ name, Relation.TransGen (hierarchy config).Extends name name) ∧
    (∀ circle, (hierarchy config).circle? = some circle →
      (hierarchy config).IsCircle circle ∧
        (SchemaError.interfaceCycle circle).message =
          "interface inheritance cycle: " ++ " → ".intercalate circle) ∧
    (∀ catalog circle, readInterfaces config catalog = .error (.interfaceCycle circle) ↔
      (hierarchy config).circle? = some circle) ∧
    (∃ calls, (hierarchy config).Searches [] (OrderedMap.keys (hierarchy config)) []
        ((hierarchy config).walk [] (OrderedMap.keys (hierarchy config)) []) calls ∧
      calls ≤ config.interfaces.size +
        (config.interfaces.values.map fun written => written.extended.length).sum) ∧
    ((hierarchy config).circle? = none ↔
      ∀ name, ∃ visited, (hierarchy config).Visits [name] visited) ∧
    ((hierarchy config).circle? = none → ∀ own : OrderedMap Layout, ∀ name ∈ config.interfaces,
      ∃ names, (hierarchy config).ancestry name = .ok names ∧ ∀ result,
        Collects (hierarchy config) own [name] ∅ result ↔ result = inheritAll own names ∅) := by
  refine ⟨Hierarchy.exists_circle?_iff,
    fun circle hcircle => ⟨Hierarchy.isCircle_of_circle? hcircle, rfl⟩,
    fun catalog circle => readInterfaces_eq_interfaceCycle_iff h, ?_,
    Hierarchy.circle?_eq_none_iff_visits, fun hnone own name hname => ?_⟩
  · obtain ⟨calls, hsearches, hcalls⟩ := (hierarchy config).exists_searches
    refine ⟨calls, hsearches, hcalls.trans_eq ?_⟩
    simp [hierarchy, OrderedMap.map, OrderedMap.size, OrderedMap.values, Function.comp_def]
  · obtain ⟨names, hnames⟩ :=
      Hierarchy.exists_ancestry (Hierarchy.circle?_eq_none_iff.mp hnone) name
    exact ⟨names, hnames, fun result =>
      collects_iff hnone h (OrderedMap.mem_map_iff.mpr hname) hnames⟩

end Definition

/-- A schema in which the first interface leads to a circle without being on it. -/
def Config.circular : Config where
  interfaces := .ofList [("Row", { extended := ["Id", "Key"] }), ("Id", {}),
    ("Key", { extended := ["Id", "Part"] }), ("Part", { extended := ["Key"] })]

namespace Definition

set_option maxRecDepth 20000 in
theorem circle?_circular :
    (hierarchy Config.circular).circle? = some ["Key", "Part", "Key"] := by
  cbv

set_option maxRecDepth 20000 in
theorem circle?_diamond : (hierarchy Config.diamond).circle? = none := by
  cbv

/-- In the first schema the circle is found behind its start, and in the second one the fields of an
interface are collected although it comes to another one twice. -/
theorem circles_exact_circular :
    (hierarchy Config.circular).IsCircle ["Key", "Part", "Key"] ∧
      readInterfaces Config.circular ∅ = .error (.interfaceCycle ["Key", "Part", "Key"]) ∧
        ∀ own, ∃ result, Collects (hierarchy Config.diamond) own ["Row"] ∅ result := by
  have hcircular : (hierarchy Config.circular).Closed := closed_iff_checkExtensions.mpr (by cbv)
  have hdiamond : (hierarchy Config.diamond).Closed := closed_iff_checkExtensions.mpr (by cbv)
  obtain ⟨-, hcircles, hreports, -⟩ := circles_exact hcircular
  obtain ⟨-, -, -, -, -, hcollects⟩ := circles_exact hdiamond
  refine ⟨(hcircles _ circle?_circular).1, (hreports _ _).mpr circle?_circular, fun own => ?_⟩
  obtain ⟨names, -, hresult⟩ := hcollects circle?_diamond own "Row" (by decide)
  exact ⟨_, (hresult _).mpr rfl⟩

end Definition

end SchemaEvolution

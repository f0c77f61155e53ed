import SchemaEvolution.Proofs.ChainOrder

/-!
# Exactly the single chains are accepted

The versions of a schema form a chain when they can be listed once each, from the one version that
continues none to the current one, each continuing the one in front of it. Finding the chain
succeeds on these schemas and on no others. The walk from version to version ends on every
declaration, and it ends because nothing continues the last version, never because it has come
round in a circle.

## Main definitions

* `Chain.Continues`: a declared version continues another one
* `Chain.Enumerates`: the versions of a schema, listed as a chain
* `Chain.WalkStep`: one step of the walk

## Main results

* `Chain.wellFounded_walkStep`, `Chain.walkSteps_follow`: the walk ends where `follow` says
* `Chain.Walked.not_mem_of_next?`: the walk never meets a version again
* `Chain.Enumerates.follow_eq`, `Chain.Enumerates.unique`: there is one way to list a chain
* `Chain.mem_follow_iff`: the walk visits what can be reached from the root
* `Chain.ofDefinition_exact`: exactly the single chains are accepted
-/

namespace SchemaEvolution.Chain

variable {declared : Declared} {name other before first last : String} {order seen : List String}

/-- A declared version continues another one. -/
def Continues (declared : Declared) (before name : String) : Prop :=
  ∃ version, declared.get? name = some version ∧ version.previous = some before

/-- **The versions of a schema, listed as a chain**: each declared version once, from one that
continues none and transforms nothing to the current one, each continuing the one in front. -/
structure Enumerates (definition : Definition) (order : List String) : Prop where
  nodup : order.Nodup
  mem : ∀ name, name ∈ order ↔ name ∈ definition.versions
  linked : order.IsChain (Continues definition.versions)
  first : ∃ root version, order.head? = some root ∧
    definition.versions.get? root = some version ∧ version.previous = none ∧
      version.transformations = []
  last : order.getLast? = some definition.currentVersion

/-! ## What the checks ask for -/

theorem Continues.mem (h : Continues declared before name) : name ∈ declared := by
  obtain ⟨version, hversion, -⟩ := h
  exact OrderedMap.mem_of_get? hversion

/-- A version continues one version at most. -/
theorem Continues.unique (h : Continues declared before name)
    (h' : Continues declared other name) : before = other := by
  obtain ⟨version, hversion, hprevious⟩ := h
  obtain ⟨version', hversion', hprevious'⟩ := h'
  obtain rfl := Option.some.inj (hversion.symm.trans hversion')
  exact Option.some.inj (hprevious.symm.trans hprevious')

theorem continues_of_next? (h : next? declared.entries before = some name) :
    Continues declared before name := exists_of_next? h

theorem exists_next? (h : Continues declared before name) :
    ∃ found, next? declared.entries before = some found := by
  obtain ⟨version, hversion, hprevious⟩ := h
  have hsome : (declared.entries.find? fun entry => entry.2.previous == some before).isSome :=
    List.find?_isSome.mpr
      ⟨(name, version), OrderedMap.get?_eq_some_iff.mp hversion, beq_iff_eq.mpr hprevious⟩
  obtain ⟨found, hfound⟩ := Option.isSome_iff_exists.mp hsome
  exact ⟨found.1, by rw [next?, hfound]; rfl⟩

theorem checkPrevious_eq_ok_iff {entries : List (String × VersionDecl)} :
    checkPrevious declared entries = .ok () ↔
      ∀ entry ∈ entries, ∀ previous, entry.2.previous = some previous → previous ∈ declared := by
  induction entries with
  | nil => exact iff_of_true rfl nofun
  | cons entry rest ih =>
    obtain ⟨name, version⟩ := entry
    rw [List.forall_mem_cons, ← ih, checkPrevious]
    cases hprevious : version.previous with
    | none => exact (and_iff_right nofun).symm
    | some previous =>
      dsimp only
      split
      · rename_i hmem
        refine (and_iff_right fun other hother => ?_).symm
        rwa [← Option.some.inj hother]
      · rename_i hnot
        exact iff_of_false nofun fun h => hnot (h.1 previous rfl)

theorem mem_roots_iff : name ∈ roots declared ↔
    ∃ version, declared.get? name = some version ∧ version.previous = none := by
  simp only [roots, List.mem_map, List.mem_filter, Option.isNone_iff_eq_none]
  constructor
  · rintro ⟨⟨name', version⟩, ⟨hentry, hnone⟩, rfl⟩
    exact ⟨version, OrderedMap.get?_eq_some_iff.mpr hentry, hnone⟩
  · rintro ⟨version, hversion, hnone⟩
    exact ⟨(name, version), ⟨OrderedMap.get?_eq_some_iff.mp hversion, hnone⟩, rfl⟩

theorem root_eq_ok_iff : root declared = .ok first ↔ roots declared = [first] := by
  unfold root
  split
  · rename_i hroots
    rw [hroots]
    exact iff_of_false nofun nofun
  · rename_i found hroots
    rw [hroots, List.cons.injEq, and_iff_left rfl]
    exact ⟨Except.ok.inj, congrArg Except.ok⟩
  · rename_i hnone hone
    exact iff_of_false nofun (hone first)

/-- The root is the only version that continues none. -/
theorem root_eq_ok_iff_unique : root declared = .ok first ↔
    ∀ name, (∃ version, declared.get? name = some version ∧ version.previous = none) ↔
      name = first := by
  simp only [root_eq_ok_iff, ← mem_roots_iff]
  have hnodup : (roots declared).Nodup :=
    (List.filter_sublist.map Prod.fst).nodup declared.distinct
  constructor
  · intro h name
    rw [h, List.mem_singleton]
  · intro h
    have hperm : (roots declared).Perm [first] :=
      (List.perm_ext_iff_of_nodup hnodup (List.nodup_singleton first)).mpr fun name => by
        rw [h, List.mem_singleton]
    exact List.perm_singleton.mp hperm

/-- Two entries do not continue the same version. -/
def Apart (entry later : String × VersionDecl) : Prop :=
  ∀ previous, entry.2.previous = some previous → later.2.previous ≠ some previous

theorem next?_eq_none_iff {entries : List (String × VersionDecl)} :
    next? entries before = none ↔ ∀ entry ∈ entries, entry.2.previous ≠ some before := by
  simp [next?, List.find?_eq_none]

theorem checkNext_cons_eq_ok_iff {front rest : List (String × VersionDecl)}
    {entry : String × VersionDecl} : checkNext front (entry :: rest) = .ok () ↔
      (∀ earlier ∈ front, Apart earlier entry) ∧ checkNext (front ++ [entry]) rest = .ok () := by
  obtain ⟨name, version⟩ := entry
  rw [checkNext]
  cases hprevious : version.previous with
  | none =>
    refine (and_iff_right fun earlier _ previous _ hsame => ?_).symm
    cases hprevious.symm.trans hsame
  | some previous =>
    have hapart : (∀ earlier ∈ front, Apart earlier (name, version)) ↔
        next? front previous = none := by
      rw [next?_eq_none_iff]
      refine forall₂_congr fun earlier _ => ⟨fun h hsame => h previous hsame hprevious, ?_⟩
      rintro h other hother hsame
      obtain rfl := Option.some.inj (hprevious.symm.trans hsame)
      exact h hother
    dsimp only
    rw [hapart]
    split
    · rename_i found hfound
      refine iff_of_false (fun h => ?_) fun h => ?_
      · cases h
      · cases hfound.symm.trans h.1
    · rename_i hnone
      exact (and_iff_right hnone).symm

/-- No version is continued by two of the entries, nor by an entry and one in front. -/
theorem checkNext_eq_ok_iff {front entries : List (String × VersionDecl)} :
    checkNext front entries = .ok () ↔
      entries.Pairwise Apart ∧ ∀ earlier ∈ front, ∀ entry ∈ entries, Apart earlier entry := by
  induction entries generalizing front with
  | nil => exact iff_of_true rfl ⟨.nil, nofun⟩
  | cons entry rest ih =>
    rw [checkNext_cons_eq_ok_iff, ih, List.pairwise_cons]
    simp only [List.forall_mem_append, List.forall_mem_cons, forall_and]
    tauto

/-- **No version is continued by two.** -/
theorem checkNext_eq_ok_iff_unique : checkNext [] declared.entries = .ok () ↔
    ∀ before name other, Continues declared before name → Continues declared before other →
      name = other := by
  rw [checkNext_eq_ok_iff, and_iff_left nofun, List.pairwise_iff_getElem]
  constructor
  · rintro h before name other ⟨version, hversion, hprevious⟩ ⟨version', hversion', hprevious'⟩
    obtain ⟨i, hi, hget⟩ := List.mem_iff_getElem.mp (OrderedMap.get?_eq_some_iff.mp hversion)
    obtain ⟨j, hj, hget'⟩ := List.mem_iff_getElem.mp (OrderedMap.get?_eq_some_iff.mp hversion')
    rcases Nat.lt_trichotomy i j with hlt | rfl | hgt
    · exact absurd (by rw [hget']; exact hprevious')
        (h i j hi hj hlt before (by rw [hget]; exact hprevious))
    · exact congrArg Prod.fst (hget.symm.trans hget')
    · exact absurd (by rw [hget]; exact hprevious)
        (h j i hj hi hgt before (by rw [hget']; exact hprevious'))
  · intro h i j hi hj hlt previous hprevious hprevious'
    have hsame := h previous _ _
      ⟨_, OrderedMap.get?_eq_some_iff.mpr (List.getElem_mem hi), hprevious⟩
      ⟨_, OrderedMap.get?_eq_some_iff.mpr (List.getElem_mem hj), hprevious'⟩
    have hnames := List.pairwise_iff_getElem.mp (List.pairwise_map.mp declared.distinct)
    exact hnames i j hi hj hlt hsame

theorem checkRoot_eq_ok_iff : checkRoot declared first = .ok () ↔
    ∀ version, declared.get? first = some version → version.transformations = [] := by
  unfold checkRoot
  cases declared.get? first with
  | none => exact iff_of_true rfl nofun
  | some version =>
    dsimp only
    split
    · rename_i hempty
      refine iff_of_true rfl fun version' hversion' => ?_
      rw [← Option.some.inj hversion']
      exact List.isEmpty_iff.mp hempty
    · rename_i hsome
      exact iff_of_false nofun fun h => hsome (List.isEmpty_iff.mpr (h version rfl))

/-! ## The walk -/

/-- The versions seen so far, and the last of them. -/
abbrev WalkState := List String × String

/-- **One step of the walk**: to the version that continues the last one, if it is new. -/
inductive WalkStep (declared : Declared) : WalkState → WalkState → Prop
  | extend {seen : List String} {last name : String}
      (found : next? declared.entries last = some name) (fresh : name ∉ seen) :
      WalkStep declared (seen, last) (seen ++ [name], name)

/-- **No walk goes on forever**: each step leaves fewer declared versions unseen. -/
theorem wellFounded_walkStep (declared : Declared) : WellFounded (flip (WalkStep declared)) := by
  refine Subrelation.wf ?_ (measure fun state : WalkState => (unseen declared state.1).length).wf
  intro after before hstep
  cases hstep with
  | extend found fresh =>
    exact unseen_lt (mt List.contains_iff_mem.mp fresh) (mem_of_next? found)

/-- **The walk ends where `follow` says.** -/
theorem walkSteps_follow (declared : Declared) (seen : List String) (last : String) :
    ∃ final, Relation.ReflTransGen (WalkStep declared) (seen, last)
        (follow declared seen last, final) ∧
      ∀ name, next? declared.entries final = some name → name ∈ follow declared seen last := by
  fun_induction follow declared seen last with
  | case1 seen last hnone => exact ⟨last, .refl, fun name hname => by cases hnone.symm.trans hname⟩
  | case2 seen last name hfound hknown =>
    refine ⟨last, .refl, fun other hother => ?_⟩
    obtain rfl := Option.some.inj (hfound.symm.trans hother)
    exact List.contains_iff_mem.mp hknown
  | case3 seen last name hfound hnew ih =>
    obtain ⟨final, hsteps, hend⟩ := ih
    exact ⟨final, .head (.extend hfound (mt List.contains_iff_mem.mpr hnew)) hsteps, hend⟩

/-- **What holds all along the walk** from a root: the versions seen are linked, and none of them
was seen twice. -/
structure Walked (declared : Declared) (first : String) (state : WalkState) : Prop where
  head : state.1.head? = some first
  last : state.1.getLast? = some state.2
  nodup : state.1.Nodup
  linked : state.1.IsChain (Continues declared)

theorem Walked.start (declared : Declared) (first : String) :
    Walked declared first ([first], first) :=
  ⟨rfl, rfl, List.nodup_singleton first, .singleton first⟩

theorem Walked.step {state state' : WalkState} (h : Walked declared first state)
    (hstep : WalkStep declared state state') : Walked declared first state' := by
  cases hstep with
  | @extend seen last name found fresh =>
    refine ⟨?_, List.getLast?_concat, ?_, ?_⟩
    · rw [List.head?_append, h.head]
      rfl
    · rw [List.nodup_append_comm, List.singleton_append]
      exact List.nodup_cons.mpr ⟨fresh, h.nodup⟩
    · refine List.isChain_append.mpr ⟨h.linked, .singleton name, ?_⟩
      intro before hbefore next hnext
      obtain rfl := Option.some.inj (h.last.symm.trans hbefore)
      obtain rfl := Option.some.inj hnext
      exact continues_of_next? found

theorem Walked.run {state state' : WalkState} (h : Walked declared first state)
    (hrun : Relation.ReflTransGen (WalkStep declared) state state') :
    Walked declared first state' := by
  induction hrun with
  | refl => exact h
  | tail _ hstep ih => exact ih.step hstep

/-- In a chain an item is the first one, or follows on the one at the place before. -/
theorem eq_head_or_exists_before {α : Type} {R : α → α → Prop} {items : List α} {item : α}
    (h : items.IsChain R) (hitem : item ∈ items) :
    items.head? = some item ∨ ∃ place before, items[place]? = some before ∧
      items[place + 1]? = some item ∧ R before item := by
  obtain ⟨place, hlt, rfl⟩ := List.mem_iff_getElem.mp hitem
  cases place with
  | zero => exact .inl (by rw [List.head?_eq_getElem?, List.getElem?_eq_getElem hlt])
  | succ place =>
    have hbefore : place < items.length := Nat.lt_of_succ_lt hlt
    exact .inr ⟨place, items[place], List.getElem?_eq_getElem hbefore,
      List.getElem?_eq_getElem hlt, List.isChain_iff_getElem.mp h place hlt⟩

/-- **The walk never meets a version again**: the version that it would meet would continue the
last one, and the versions that were seen continue others or none. -/
theorem Walked.not_mem_of_next? {state : WalkState} (h : Walked declared first state)
    (hfirst : ∀ before, ¬Continues declared before first)
    (hnext : next? declared.entries state.2 = some name) : name ∉ state.1 := by
  intro hmem
  have hcontinues := continues_of_next? hnext
  rcases eq_head_or_exists_before h.linked hmem with hhead | ⟨place, before, hbefore, hat, hlink⟩
  · obtain rfl := Option.some.inj (h.head.symm.trans hhead)
    exact hfirst _ hcontinues
  · obtain rfl := hlink.unique hcontinues
    have hlast := h.last
    rw [List.getLast?_eq_getElem?, ← hbefore] at hlast
    have hlt := (List.getElem?_eq_some_iff.mp hat).1
    have hplace := (List.getElem?_inj (by omega) h.nodup).mp hlast
    omega

/-- The root continues no version. -/
theorem not_continues_of_root (h : root declared = .ok first) (before : String) :
    ¬Continues declared before first := by
  rintro ⟨version, hversion, hprevious⟩
  obtain ⟨version', hversion', hnone⟩ := exists_of_root h
  obtain rfl := Option.some.inj (hversion.symm.trans hversion')
  cases hprevious.symm.trans hnone

/-- **The walk from the root ends since nothing continues the last version.** -/
theorem exists_walked_follow (h : root declared = .ok first) :
    ∃ final, Relation.ReflTransGen (WalkStep declared) ([first], first)
        (follow declared [first] first, final) ∧
      Walked declared first (follow declared [first] first, final) ∧
        next? declared.entries final = none := by
  obtain ⟨final, hsteps, hend⟩ := walkSteps_follow declared [first] first
  have hwalked := (Walked.start declared first).run hsteps
  refine ⟨final, hsteps, hwalked, Option.eq_none_iff_forall_ne_some.mpr fun name hname => ?_⟩
  exact hwalked.not_mem_of_next? (not_continues_of_root h) hname (hend name hname)

/-- **The walk visits what can be reached from the root**, if no version is continued by two. -/
theorem mem_follow_iff (hroot : root declared = .ok first)
    (hnext : checkNext [] declared.entries = .ok ()) :
    name ∈ follow declared [first] first ↔
      Relation.ReflTransGen (Continues declared) first name := by
  obtain ⟨final, -, hwalked, hend⟩ := exists_walked_follow hroot
  constructor
  · intro hmem
    obtain ⟨place, hlt, rfl⟩ := List.mem_iff_getElem.mp hmem
    induction place with
    | zero =>
      have hhead := hwalked.head
      rw [List.head?_eq_getElem?, List.getElem?_eq_getElem hlt] at hhead
      rw [Option.some.inj hhead]
    | succ place ih =>
      have hlink := List.isChain_iff_getElem.mp hwalked.linked place hlt
      exact (ih (Nat.lt_of_succ_lt hlt) (List.getElem_mem _)).tail hlink
  · intro hreach
    induction hreach with
    | refl => exact List.mem_of_mem_head? hwalked.head
    | @tail before name _ hcontinues ih =>
      obtain ⟨place, hlt, rfl⟩ := List.mem_iff_getElem.mp ih
      by_cases hbehind : place + 1 < (follow declared [first] first).length
      · have hlink := List.isChain_iff_getElem.mp hwalked.linked place hbehind
        rw [checkNext_eq_ok_iff_unique.mp hnext _ _ _ hcontinues hlink]
        exact List.getElem_mem _
      · have hlast := hwalked.last
        rw [List.getLast?_eq_getElem?, List.getElem?_eq_some_iff] at hlast
        obtain ⟨hbound, hlast⟩ := hlast
        obtain ⟨found, hfound⟩ := exists_next? hcontinues
        have hsame : place = (follow declared [first] first).length - 1 := by omega
        subst hsame
        rw [hlast, hend] at hfound
        cases hfound

theorem subset_keys_follow (h : root declared = .ok first)
    (hname : name ∈ follow declared [first] first) : name ∈ declared := by
  obtain ⟨final, -, hwalked, -⟩ := exists_walked_follow h
  rcases eq_head_or_exists_before hwalked.linked hname with hhead | ⟨_, _, -, -, hlink⟩
  · obtain rfl := Option.some.inj (hwalked.head.symm.trans hhead)
    obtain ⟨version, hversion, -⟩ := exists_of_root h
    exact OrderedMap.mem_of_get? hversion
  · exact hlink.mem

/-! ## Listing a chain -/

namespace Enumerates

variable {definition : Definition}

/-- In a listed chain only the first version continues none. -/
theorem exists_root (h : Enumerates definition order) :
    ∃ root, order.head? = some root ∧ Chain.root definition.versions = .ok root ∧
      checkRoot definition.versions root = .ok () := by
  obtain ⟨first, version, hhead, hversion, hnone, hempty⟩ := h.first
  refine ⟨first, hhead, root_eq_ok_iff_unique.mpr fun name => ⟨?_, ?_⟩, ?_⟩
  · rintro ⟨other, hother, hroot⟩
    have hmem := (h.mem name).mpr (OrderedMap.mem_of_get? hother)
    rcases eq_head_or_exists_before h.linked hmem with hfirst | ⟨_, _, -, -, found, hfound, hsome⟩
    · exact Option.some.inj (hfirst.symm.trans hhead)
    · obtain rfl := Option.some.inj (hother.symm.trans hfound)
      cases hsome.symm.trans hroot
  · rintro rfl
    exact ⟨version, hversion, hnone⟩
  · refine checkRoot_eq_ok_iff.mpr fun other hother => ?_
    rw [← Option.some.inj (hversion.symm.trans hother), hempty]

theorem checkPrevious (h : Enumerates definition order) :
    Chain.checkPrevious definition.versions definition.versions.entries = .ok () := by
  refine checkPrevious_eq_ok_iff.mpr fun entry hentry previous hprevious => ?_
  have hget := OrderedMap.get?_eq_some_iff.mpr hentry
  have hmem := (h.mem entry.1).mpr (OrderedMap.mem_of_get? hget)
  rcases eq_head_or_exists_before h.linked hmem with hhead | ⟨_, before, hbefore, -, hlink⟩
  · obtain ⟨first, version, hfirst, hversion, hnone, -⟩ := h.first
    obtain rfl := Option.some.inj (hfirst.symm.trans hhead)
    obtain rfl := Option.some.inj (hversion.symm.trans hget)
    cases hprevious.symm.trans hnone
  · obtain rfl := hlink.unique ⟨entry.2, hget, hprevious⟩
    exact (h.mem _).mp (List.mem_of_getElem? hbefore)

theorem checkNext (h : Enumerates definition order) :
    Chain.checkNext [] definition.versions.entries = .ok () := by
  obtain ⟨first, hhead, hroot, -⟩ := h.exists_root
  have hbehind : ∀ {before name}, Continues definition.versions before name →
      ∃ place, order[place]? = some before ∧ order[place + 1]? = some name := by
    intro before name hcontinues
    have hmem := (h.mem name).mpr hcontinues.mem
    rcases eq_head_or_exists_before h.linked hmem with hfirst | ⟨place, front, hfront, hat, hlink⟩
    · obtain rfl := Option.some.inj (hhead.symm.trans hfirst)
      exact absurd hcontinues (not_continues_of_root hroot before)
    · obtain rfl := hlink.unique hcontinues
      exact ⟨place, hfront, hat⟩
  refine checkNext_eq_ok_iff_unique.mpr fun before name other hname hother => ?_
  obtain ⟨place, hplace, hnext⟩ := hbehind hname
  obtain ⟨place', hplace', hnext'⟩ := hbehind hother
  have hlt := (List.getElem?_eq_some_iff.mp hplace).1
  obtain rfl := (List.getElem?_inj hlt h.nodup).mp (hplace.trans hplace'.symm)
  exact Option.some.inj (hnext.symm.trans hnext')

/-- **The walk from the root lists the chain.** -/
theorem follow_eq (h : Enumerates definition order) {first : String}
    (hhead : order.head? = some first) :
    follow definition.versions [first] first = order := by
  -- from each place on, the walk takes up the versions behind it one after the other
  have hwalk : ∀ (rest seen : List String) (last : String), order = seen ++ rest →
      seen.getLast? = some last → follow definition.versions seen last = order := by
    intro rest
    induction rest with
    | nil =>
      intro seen last hsplit hlast
      rw [List.append_nil] at hsplit
      subst hsplit
      unfold follow
      split
      · rfl
      · rename_i name hfound
        have hmem := (h.mem name).mpr (continues_of_next? hfound).mem
        rw [dif_pos (List.contains_iff_mem.mpr hmem)]
    | cons name rest ih =>
      intro seen last hsplit hlast
      have hlinked := h.linked
      have hnodup := h.nodup
      rw [hsplit] at hlinked hnodup
      have hlink := (List.isChain_append.mp hlinked).2.2 last hlast name rfl
      obtain ⟨found, hfound⟩ := exists_next? hlink
      obtain rfl := checkNext_eq_ok_iff_unique.mp h.checkNext _ _ _ hlink
        (continues_of_next? hfound)
      have hfresh : name ∉ seen := fun hmem =>
        (List.nodup_append.mp hnodup).2.2 name hmem name List.mem_cons_self rfl
      unfold follow
      split
      · rename_i hnone
        cases hnone.symm.trans hfound
      · rename_i other hother
        obtain rfl := Option.some.inj (hother.symm.trans hfound)
        rw [dif_neg (mt List.contains_iff_mem.mp hfresh)]
        exact ih _ _ (by rw [hsplit, List.append_assoc, List.singleton_append])
          List.getLast?_concat
  cases order with
  | nil => cases hhead
  | cons name rest =>
    obtain rfl := Option.some.inj hhead
    exact hwalk rest [name] name rfl rfl

/-- **There is one way to list a chain.** -/
theorem unique {order' : List String} (h : Enumerates definition order)
    (h' : Enumerates definition order') : order' = order := by
  obtain ⟨first, hhead, hroot, -⟩ := h.exists_root
  obtain ⟨first', hhead', hroot', -⟩ := h'.exists_root
  obtain rfl := Except.ok.inj (hroot.symm.trans hroot')
  exact (h'.follow_eq hhead').symm.trans (h.follow_eq hhead)

theorem length_eq (h : Enumerates definition order) :
    order.length = definition.versions.size := by
  have hperm : order.Perm definition.versions.keys :=
    (List.perm_ext_iff_of_nodup h.nodup definition.versions.distinct).mpr h.mem
  rw [hperm.length_eq, OrderedMap.keys, List.length_map, OrderedMap.size]

/-- **A listed chain is found.** -/
theorem ofDefinition_eq (h : Enumerates definition order) :
    ofDefinition definition = .ok (ofOrder definition.versions order) := by
  obtain ⟨first, hhead, hroot, hcheck⟩ := h.exists_root
  unfold ofDefinition
  dsimp only
  rw [h.checkPrevious, ok_bind, hroot, ok_bind, h.checkNext, ok_bind, hcheck, ok_bind,
    h.follow_eq hhead, h.last, if_neg]
  · rfl
  · simp [h.length_eq]

/-- The version at a place of a listed chain is the declared one. -/
theorem get?_ofOrder (h : Enumerates definition order) {place : Nat} {name : String}
    (hname : order[place]? = some name) : ∃ version, definition.versions.get? name = some version ∧
      (ofOrder definition.versions order).get? place = some
        { index := place, name := name, previous := version.previous
          isCurrent := place + 1 == order.length, transformations := version.transformations
          changelog := version.changelog } := by
  obtain ⟨version, hversion⟩ :=
    OrderedMap.exists_get?_of_mem ((h.mem name).mp (List.mem_of_getElem? hname))
  refine ⟨version, hversion, ?_⟩
  rw [ofOrder, get?, List.getElem?_mapIdx, hname, Option.map_some, versionAt, hversion]
  rfl

end Enumerates

/-- **A chain that is found lists the versions.** -/
theorem enumerates_of_ofDefinition {definition : Definition} {chain : Chain}
    (h : ofDefinition definition = .ok chain) :
    ∃ order, Enumerates definition order ∧ chain = ofOrder definition.versions order := by
  obtain ⟨first, hroot, -, hnext, hcheck, hlast, hlength, rfl⟩ := ofDefinition_eq_ok h
  obtain ⟨final, -, hwalked, -⟩ := exists_walked_follow hroot
  refine ⟨_, ⟨hwalked.nodup, fun name => ⟨subset_keys_follow hroot, fun hmem => ?_⟩,
    hwalked.linked, ?_, ?_⟩, rfl⟩
  · have hperm : (follow definition.versions [first] first).Perm definition.versions.keys := by
      refine (hwalked.nodup.subperm fun name => subset_keys_follow hroot).perm_of_length_le ?_
      rw [hlength, OrderedMap.keys, List.length_map, OrderedMap.size]
    exact hperm.mem_iff.mpr hmem
  · obtain ⟨version, hversion, hnone⟩ := exists_of_root hroot
    exact ⟨first, version, hwalked.head, hversion, hnone,
      checkRoot_eq_ok_iff.mp hcheck version hversion⟩
  · rw [hwalked.last] at hlast ⊢
    exact congrArg some hlast

/-! ## A chain that is not the whole schema -/

section Mismatch

variable {definition : Definition} {expected found : String} {visited total : Nat}

theorem checkPrevious_ne_currentMismatch {entries : List (String × VersionDecl)} :
    checkPrevious declared entries ≠ .error (.currentMismatch expected found visited total) := by
  induction entries with
  | nil => exact nofun
  | cons entry rest ih =>
    unfold checkPrevious
    split
    · exact ih
    · split
      · exact ih
      · exact nofun

theorem root_ne_currentMismatch :
    root declared ≠ .error (.currentMismatch expected found visited total) := by
  unfold root
  split <;> exact nofun

theorem checkNext_ne_currentMismatch {front entries : List (String × VersionDecl)} :
    checkNext front entries ≠ .error (.currentMismatch expected found visited total) := by
  induction entries generalizing front with
  | nil =>
    intro h
    cases h
  | cons entry rest ih =>
    unfold checkNext
    split
    · exact ih
    · split
      · intro h
        cases h
      · exact ih

theorem checkRoot_ne_currentMismatch :
    checkRoot declared first ≠ .error (.currentMismatch expected found visited total) := by
  unfold checkRoot
  split
  · exact nofun
  · split <;> exact nofun

/-- **The versions that are reached** from the root, in order. -/
structure Reaches (declared : Declared) (first : String) (order : List String) : Prop where
  nodup : order.Nodup
  head : order.head? = some first
  linked : order.IsChain (Continues declared)
  mem : ∀ name, name ∈ order ↔ Relation.ReflTransGen (Continues declared) first name

/-- The walk meets no more versions than are declared. -/
theorem length_follow_le (h : root declared = .ok first) :
    (follow declared [first] first).length ≤ declared.size := by
  obtain ⟨final, -, hwalked, -⟩ := exists_walked_follow h
  have hle := (hwalked.nodup.subperm fun name => subset_keys_follow h).length_le
  rwa [OrderedMap.keys, List.length_map] at hle

/-- **What a mismatch reports**: how many versions are reached and which is the last of them. It is
another one than the current version, or some versions are not reached. -/
theorem exists_of_currentMismatch
    (h : ofDefinition definition = .error (.currentMismatch expected found visited total)) :
    ∃ first order, root definition.versions = .ok first ∧
      Reaches definition.versions first order ∧ expected = definition.currentVersion ∧
      total = definition.versions.size ∧ visited = order.length ∧
      order.getLast? = some found ∧ (found ≠ expected ∨ visited < total) := by
  rcases bind_eq_error.mp h with h | ⟨-, -, h⟩
  · exact absurd h checkPrevious_ne_currentMismatch
  rcases bind_eq_error.mp h with h | ⟨first, hroot, h⟩
  · exact absurd h root_ne_currentMismatch
  rcases bind_eq_error.mp h with h | ⟨_, hnext, h⟩
  · exact absurd h checkNext_ne_currentMismatch
  rcases bind_eq_error.mp h with h | ⟨-, -, h⟩
  · exact absurd h checkRoot_ne_currentMismatch
  obtain ⟨final, -, hwalked, -⟩ := exists_walked_follow hroot
  have hlast := hwalked.last
  dsimp only at h
  split at h
  · rename_i hends
    rw [hlast, Bool.or_eq_true, bne_iff_ne, bne_iff_ne] at hends
    injection h with h
    injection h with hexpected hfound hvisited htotal
    rw [hlast] at hfound
    subst hexpected hfound hvisited htotal
    refine ⟨first, _, hroot, ⟨hwalked.nodup, hwalked.head, hwalked.linked,
      fun name => mem_follow_iff hroot hnext⟩, rfl, rfl, rfl, hlast, ?_⟩
    exact hends.imp_right fun hne => lt_of_le_of_ne (length_follow_le hroot) hne
  · cases h

end Mismatch

/-! ## Exactly the single chains -/

/-- **Exactly the single chains are accepted.** A schema has a chain if and only if its versions can
be listed as one. There is one such list then, and the chain holds the declared versions in its
order. On every declaration the walk ends, and from the root it ends because nothing continues the
last version: no version that the walk meets was seen before. A mismatch reports what is reached
from the root. -/
theorem ofDefinition_exact (definition : Definition) :
    ((∃ chain, ofDefinition definition = .ok chain) ↔ ∃ order, Enumerates definition order) ∧
    (∀ order, Enumerates definition order →
      (∀ other, Enumerates definition other → other = order) ∧
      ∃ chain, ofDefinition definition = .ok chain ∧ chain.size = order.length ∧
        ∀ (place : Nat) name, order[place]? = some name →
          ∃ version, definition.versions.get? name = some version ∧
            chain.get? place = some
              { index := place, name := name, previous := version.previous
                isCurrent := place + 1 == order.length
                transformations := version.transformations, changelog := version.changelog }) ∧
    WellFounded (flip (WalkStep definition.versions)) ∧
    (∀ first, root definition.versions = .ok first →
      (∃ final, Relation.ReflTransGen (WalkStep definition.versions) ([first], first)
          (follow definition.versions [first] first, final) ∧
        next? definition.versions.entries final = none) ∧
      ∀ state, Relation.ReflTransGen (WalkStep definition.versions) ([first], first) state →
        ∀ name, next? definition.versions.entries state.2 = some name → name ∉ state.1) ∧
    ∀ expected found visited total,
      ofDefinition definition = .error (.currentMismatch expected found visited total) →
      ∃ first order, root definition.versions = .ok first ∧
        Reaches definition.versions first order ∧ expected = definition.currentVersion ∧
        total = definition.versions.size ∧ visited = order.length ∧
        order.getLast? = some found ∧ (found ≠ expected ∨ visited < total) := by
  refine ⟨⟨?_, ?_⟩, ?_, wellFounded_walkStep _, ?_, ?_⟩
  · rintro ⟨chain, hchain⟩
    obtain ⟨order, horder, -⟩ := enumerates_of_ofDefinition hchain
    exact ⟨order, horder⟩
  · rintro ⟨order, horder⟩
    exact ⟨_, horder.ofDefinition_eq⟩
  · intro order horder
    exact ⟨fun other hother => horder.unique hother, _, horder.ofDefinition_eq,
      size_ofOrder _ _, fun place name hname => horder.get?_ofOrder hname⟩
  · intro first hroot
    obtain ⟨final, hsteps, -, hend⟩ := exists_walked_follow hroot
    refine ⟨⟨final, hsteps, hend⟩, fun state hrun name hname => ?_⟩
    exact ((Walked.start _ first).run hrun).not_mem_of_next? (not_continues_of_root hroot) hname
  · exact fun expected found visited total => exists_of_currentMismatch

/-- A schema of four versions, two of which go round in a circle apart from the others. -/
def detached : Definition where
  currentVersion := "2"
  catalog := ∅
  interfaces := ∅
  baseTypes := ∅
  superTypes := ∅
  customTypes := ∅
  versions := .ofList [
    ("1", ⟨none, [], none⟩), ("2", ⟨some "1", [], none⟩),
    ("3", ⟨some "4", [], none⟩), ("4", ⟨some "3", [], none⟩)]

set_option maxRecDepth 20000 in
theorem ofDefinition_detached :
    ofDefinition detached = .error (.currentMismatch "2" "2" 2 4) := by
  cbv

/-- Two versions are reached, the last of them is the current one, and two are left out. -/
theorem ofDefinition_exact_detached :
    ∃ order, Reaches detached.versions "1" order ∧ order.length = 2 ∧
      order.getLast? = some "2" ∧ ∀ listed, ¬Enumerates detached listed := by
  obtain ⟨hsucceeds, -, -, -, hmismatch⟩ := ofDefinition_exact detached
  obtain ⟨first, order, hroot, hreaches, -, -, hlength, hlast, -⟩ :=
    hmismatch _ _ _ _ ofDefinition_detached
  obtain rfl : "1" = first := Except.ok.inj ((by decide : root _ = .ok "1").symm.trans hroot)
  refine ⟨order, hreaches, hlength.symm, hlast, fun listed hlisted => ?_⟩
  obtain ⟨chain, hchain⟩ := hsucceeds.mpr ⟨listed, hlisted⟩
  cases ofDefinition_detached.symm.trans hchain

end SchemaEvolution.Chain

import SchemaEvolution.Proofs.Relabel
import SchemaEvolution.Proofs.Reordering
import SchemaEvolution.Proofs.Sequencing

/-!
# One more version

A version is inserted into a chain by linking it to the version in front and linking the version
behind to it. The schema is still a single chain then, with the new version at its place and all
others in their order.

## Main definitions

* `Config.insertVersion`: a schema with one more version
* `Definition.Inserts`: a definition with one more version
* `shift`: the place of what has something inserted in front
* `Chain.Inserts`, `Replayed.Inserts`: a chain and a schema with one more version

## Main results

* `Definition.Resolves.insertVersion`: what a schema with one more version is resolved to
* `Chain.Enumerates.insertIdx`: how the versions of the schema are listed
* `Chain.exists_ofDefinition_insertVersion`: the chain has one more version, and the others are the
  same
* `Chain.Inserts.registry_eq`, `Chain.Inserts.prefix_registry`: the code that is called
-/

namespace SchemaEvolution

/-! ## The schema -/

/-- The version with its link exchanged, if it continues `before`. -/
def VersionConfig.relink (before : Option String) (name : String) (version : VersionConfig) :
    VersionConfig :=
  if version.previous = before then { version with previous := some name } else version

/-- The version with its link exchanged, if it continues `before`. -/
def VersionDecl.relink (before : Option String) (name : String) (version : VersionDecl) :
    VersionDecl :=
  if version.previous = before then { version with previous := some name } else version

/-- **The schema with one more version** that continues `before`: what continued that continues the
new version, which is current if it continues the current one. Its entry is the one at `place`. -/
def Config.insertVersion (config : Config) (before : Option String) (place : Nat) (name : String)
    (version : VersionConfig) (fresh : name ∉ config.versions) : Config :=
  { config with
    currentVersion := if before = some config.currentVersion then name else config.currentVersion
    versions := (config.versions.map (VersionConfig.relink before name)).insertAt place name
      { version with previous := before } (mt OrderedMap.mem_map_iff.mp fresh) }

/-- **The definition with one more version** that continues `before`. -/
def Definition.insertVersion (definition : Definition) (before : Option String) (place : Nat)
    (name : String) (version : VersionDecl) (fresh : name ∉ definition.versions) : Definition :=
  { definition with
    currentVersion :=
      if before = some definition.currentVersion then name else definition.currentVersion
    versions := (definition.versions.map (VersionDecl.relink before name)).insertAt place name
      { version with previous := before } (mt OrderedMap.mem_map_iff.mp fresh) }

namespace Definition

variable {config : Config} {definition definition' : Definition} {before : Option String}
  {place : Nat} {name other : String}

theorem readVersion_eq_ok_iff {written : VersionConfig} {version : VersionDecl} :
    readVersion written = .ok version ↔ version.previous = written.previous ∧
      version.changelog = written.changelog ∧
        written.transformations.mapM readStep = .ok version.transformations := by
  unfold readVersion
  rw [bind_eq_ok]
  constructor
  · rintro ⟨steps, hsteps, h⟩
    obtain rfl := Except.ok.inj h
    exact ⟨rfl, rfl, hsteps⟩
  · obtain ⟨previous, steps, changelog⟩ := version
    rintro ⟨rfl, rfl, hsteps⟩
    exact ⟨steps, hsteps, rfl⟩

/-- Links can be exchanged before or after a version is read. -/
theorem readVersion_relink {written : VersionConfig} {version : VersionDecl}
    (h : readVersion written = .ok version) :
    readVersion (written.relink before name) = .ok (version.relink before name) := by
  obtain ⟨hprevious, hchangelog, hsteps⟩ := readVersion_eq_ok_iff.mp h
  unfold VersionConfig.relink VersionDecl.relink
  rw [hprevious]
  split
  · exact readVersion_eq_ok_iff.mpr ⟨rfl, hchangelog, hsteps⟩
  · exact h

theorem readVersion_previous (before : Option String) {written : VersionConfig}
    {version : VersionDecl} (h : readVersion written = .ok version) :
    readVersion { written with previous := before } =
      .ok { version with previous := before } := by
  obtain ⟨-, hchangelog, hsteps⟩ := readVersion_eq_ok_iff.mp h
  exact readVersion_eq_ok_iff.mpr ⟨rfl, hchangelog, hsteps⟩

/-- A schema names the versions that its definition has. -/
theorem Resolves.mem_versions_iff (h : Resolves config definition) :
    name ∈ definition.versions ↔ name ∈ config.versions := by
  rw [OrderedMap.mem_iff_mem_keys, OrderedMap.keys_of_traverse h.versions,
    ← OrderedMap.mem_iff_mem_keys]

/-- The other sections are read without a look at the versions. -/
theorem Resolves.with_versions (h : Resolves config definition)
    {versions : OrderedMap VersionConfig} {declared : OrderedMap VersionDecl} {current : String}
    (hversions : (versions.traverse fun _ written => readVersion written) = .ok declared) :
    Resolves { config with currentVersion := current, versions := versions }
      { definition with currentVersion := current, versions := declared } where
  currentVersion := rfl
  catalog := h.catalog
  baseTypes := h.baseTypes
  superTypes := h.superTypes
  customTypes := h.customTypes
  interfaces := by
    have hinterfaces := readInterfaces_eq_ok_iff.mp h.interfaces
    exact readInterfaces_eq_ok_iff.mpr hinterfaces
  versions := hversions

/-- **A schema with one more version is resolved** to the definition with one more version. -/
theorem Resolves.insertVersion (h : Resolves config definition) {written : VersionConfig}
    {version : VersionDecl} (hversion : readVersion written = .ok version)
    (fresh : name ∉ config.versions) :
    Resolves (config.insertVersion before place name written fresh)
      (definition.insertVersion before place name version
        (fun hmem => fresh (h.mem_versions_iff.mp hmem))) := by
  have hrelinked : ((config.versions.map (VersionConfig.relink before name)).traverse
      fun _ written => readVersion written) =
        .ok (definition.versions.map (VersionDecl.relink before name)) :=
    OrderedMap.traverse_map_eq_ok (fun hread => readVersion_relink hread) h.versions
  have hfresh : name ∉ definition.versions.map (VersionDecl.relink before name) :=
    fun hmem => fresh (h.mem_versions_iff.mp (OrderedMap.mem_map_iff.mp hmem))
  rw [Definition.insertVersion, h.currentVersion]
  exact h.with_versions (OrderedMap.traverse_insertAt_eq_ok_iff.mpr
    ⟨_, hfresh, _, hrelinked, readVersion_previous before hversion, rfl⟩)

/-- A schema with one more version is resolved in no other way. -/
theorem Resolves.exists_of_insertVersion (h : Resolves config definition)
    {written : VersionConfig} {fresh : name ∉ config.versions}
    (h' : Resolves (config.insertVersion before place name written fresh) definition') :
    ∃ version, ∃ fresh' : name ∉ definition.versions, readVersion written = .ok version ∧
      definition' = definition.insertVersion before place name version fresh' := by
  have hversions : (config.insertVersion before place name written fresh).versions.traverse
      (fun _ written => readVersion written) = .ok definition'.versions := h'.versions
  rw [Config.insertVersion, OrderedMap.traverse_insertAt_eq_ok_iff] at hversions
  obtain ⟨_, _, version, -, hversion, -⟩ := hversions
  have hread := readVersion_previous written.previous hversion
  refine ⟨_, fun hmem => fresh (h.mem_versions_iff.mp hmem), hread, ?_⟩
  exact Except.ok.inj ((ofConfig_eq_ok_iff.mpr h').symm.trans
    (ofConfig_eq_ok_iff.mpr (h.insertVersion hread fresh)))

/-! ## The versions that continue each other -/

section Links

variable {version : VersionDecl} (fresh : name ∉ definition.versions)

include fresh

theorem get?_insertVersion :
    (definition.insertVersion before place name version fresh).versions.get? other =
      if other = name then some { version with previous := before }
      else (definition.versions.get? other).map (VersionDecl.relink before name) := by
  rw [insertVersion, OrderedMap.get?_insertAt, OrderedMap.get?_map]

theorem get?_insertVersion_of_get? {declared : VersionDecl}
    (h : definition.versions.get? other = some declared) :
    (definition.insertVersion before place name version fresh).versions.get? other =
      some (declared.relink before name) := by
  have hother : other ≠ name := by
    rintro rfl
    exact fresh (OrderedMap.mem_of_get? h)
  rw [get?_insertVersion, if_neg hother, h, Option.map_some]

theorem mem_insertVersion : other ∈ (definition.insertVersion before place name version
    fresh).versions ↔ other = name ∨ other ∈ definition.versions := by
  rw [← OrderedMap.get?_isSome_iff, get?_insertVersion, ← OrderedMap.get?_isSome_iff]
  split
  · simp [*]
  · rw [Option.isSome_map]
    simp [*]

/-- The new version continues the one that is asked for. -/
theorem continues_new {front : String} (h : before = some front) :
    Chain.Continues (definition.insertVersion before place name version fresh).versions front
      name :=
  ⟨_, (get?_insertVersion fresh).trans (if_pos rfl), h⟩

/-- What continued the version in front continues the new one. -/
theorem continues_behind {declared : VersionDecl}
    (h : definition.versions.get? other = some declared) (hprevious : declared.previous = before) :
    Chain.Continues (definition.insertVersion before place name version fresh).versions name
      other := by
  refine ⟨_, get?_insertVersion_of_get? fresh h, ?_⟩
  rw [VersionDecl.relink, if_pos hprevious]

/-- What continued another version still does. -/
theorem continues_kept {front : String} (h : Chain.Continues definition.versions front other)
    (hfront : before ≠ some front) :
    Chain.Continues (definition.insertVersion before place name version fresh).versions front
      other := by
  obtain ⟨declared, hdeclared, hprevious⟩ := h
  refine ⟨_, get?_insertVersion_of_get? fresh hdeclared, ?_⟩
  rw [VersionDecl.relink, if_neg (hprevious ▸ hfront.symm), hprevious]

end Links

end Definition

/-! ## The chain -/

/-- The place of what stands at a place before something is inserted at `k`. -/
def shift (k v : Nat) : Nat := if v < k then v else v + 1

theorem shift_lt_shift {k v w : Nat} (h : v < w) : shift k v < shift k w := by
  unfold shift
  split <;> split <;> omega

theorem shift_succ {k v : Nat} (h : shift k v + 1 ≠ k) : shift k v + 1 = shift k (v + 1) := by
  unfold shift at h ⊢
  split at h <;> split <;> split <;> omega

/-- What has a place in the longer list had one in the shorter list. -/
theorem shift_lt_succ_iff {k v n : Nat} (hk : k ≤ n) : shift k v < n + 1 ↔ v < n := by
  unfold shift
  split <;> omega

/-- Every place but the new one is that of something that was there before. -/
theorem exists_shift_eq {k w : Nat} (h : w ≠ k) : ∃ v, shift k v = w := by
  by_cases hlt : w < k
  · exact ⟨w, if_pos hlt⟩
  · refine ⟨w - 1, ?_⟩
    rw [shift, if_neg (by omega)]
    omega

theorem getElem?_insertIdx_shift {α : Type} {items : List α} {k : Nat} {item : α} (v : Nat) :
    (items.insertIdx k item)[shift k v]? = items[v]? := by
  unfold shift
  split
  · exact List.getElem?_insertIdx_of_lt ‹_›
  · rw [List.getElem?_insertIdx_of_gt (by omega), Nat.add_sub_cancel]

namespace Chain

theorem isChain_iff_getElem? {α : Type} {R : α → α → Prop} {items : List α} :
    items.IsChain R ↔ ∀ v a b, items[v]? = some a → items[v + 1]? = some b → R a b := by
  rw [List.isChain_iff_getElem]
  constructor
  · intro h v a b ha hb
    obtain ⟨hlt, rfl⟩ := List.getElem?_eq_some_iff.mp hb
    obtain ⟨-, rfl⟩ := List.getElem?_eq_some_iff.mp ha
    exact h v hlt
  · intro h v hlt
    exact h v _ _ (List.getElem?_eq_getElem (Nat.lt_of_succ_lt hlt)) (List.getElem?_eq_getElem hlt)

variable {definition : Definition} {before : Option String} {place k : Nat} {name : String}
  {version : VersionDecl} {order : List String}

/-- **The version listed in front of a place**; none in front of the first. -/
def listedBefore (order : List String) (k : Nat) : Option String :=
  if k = 0 then none else order[k - 1]?

/-- A version is listed in front of one place only. -/
theorem Enumerates.eq_of_listedBefore (h : Enumerates definition order) {v : Nat} {front : String}
    (hfront : order[v]? = some front) (hbefore : listedBefore order k = some front) :
    k = v + 1 := by
  unfold listedBefore at hbefore
  split at hbefore
  · cases hbefore
  · have hlt := (List.getElem?_eq_some_iff.mp hfront).1
    have hplace := (List.getElem?_inj hlt h.nodup).mp (hfront.trans hbefore.symm)
    omega

/-- A version continues the one that is listed in front of it. -/
theorem Enumerates.exists_previous (h : Enumerates definition order) {other : String}
    (hother : order[k]? = some other) : ∃ declared,
      definition.versions.get? other = some declared ∧
        declared.previous = listedBefore order k := by
  cases k with
  | zero =>
    obtain ⟨root, declared, hhead, hdeclared, hnone, -⟩ := h.first
    rw [List.head?_eq_getElem?, hother] at hhead
    obtain rfl := Option.some.inj hhead
    exact ⟨declared, hdeclared, hnone⟩
  | succ v =>
    have hlt := (List.getElem?_eq_some_iff.mp hother).1
    have hfront := List.getElem?_eq_getElem (Nat.lt_of_succ_lt hlt)
    obtain ⟨declared, hdeclared, hprevious⟩ :=
      isChain_iff_getElem?.mp h.linked v _ _ hfront hother
    refine ⟨declared, hdeclared, ?_⟩
    rw [hprevious, listedBefore, if_neg (Nat.succ_ne_zero v), Nat.add_sub_cancel, hfront]

/-- **The schema with one more version is listed as a chain**, with the new version at its place. -/
theorem Enumerates.insertIdx (h : Enumerates definition order) (hk : k ≤ order.length)
    (hroot : k = 0 → version.transformations = []) (fresh : name ∉ definition.versions) :
    Enumerates (definition.insertVersion (listedBefore order k) place name version fresh)
      (order.insertIdx k name) := by
  have hfresh : name ∉ order := mt (h.mem name).mp fresh
  refine ⟨?_, fun other => ?_, ?_, ?_, ?_⟩
  · exact (List.perm_insertIdx name order hk).nodup_iff.mpr (List.nodup_cons.mpr ⟨hfresh, h.nodup⟩)
  · rw [List.mem_insertIdx hk, h.mem, Definition.mem_insertVersion]
  · refine isChain_iff_getElem?.mpr fun w a b ha hb => ?_
    by_cases hw : w = k
    · -- from the new version to the one behind it
      subst hw
      rw [List.getElem?_insertIdx_self, if_pos hk] at ha
      obtain rfl := Option.some.inj ha
      rw [List.getElem?_insertIdx_of_gt (Nat.lt_add_one w), Nat.add_sub_cancel] at hb
      obtain ⟨declared, hdeclared, hprevious⟩ := h.exists_previous hb
      exact Definition.continues_behind fresh hdeclared hprevious
    · obtain ⟨v, rfl⟩ := exists_shift_eq hw
      rw [getElem?_insertIdx_shift] at ha
      by_cases hbehind : shift k v + 1 = k
      · -- from the version in front to the new one
        rw [hbehind, List.getElem?_insertIdx_self, if_pos hk] at hb
        obtain rfl := Option.some.inj hb
        refine Definition.continues_new fresh ?_
        rw [listedBefore, if_neg (by omega), ← hbehind, Nat.add_sub_cancel, ← ha]
        have hlt : v < k := by
          by_contra hge
          rw [shift, if_neg hge] at hbehind
          omega
        rw [shift, if_pos hlt]
      · -- between two versions that were there before
        rw [shift_succ hbehind, getElem?_insertIdx_shift] at hb
        refine Definition.continues_kept fresh (isChain_iff_getElem?.mp h.linked v a b ha hb) ?_
        intro hbefore
        have hplace := h.eq_of_listedBefore ha hbefore
        subst hplace
        rw [shift, if_pos (Nat.lt_succ_self v)] at hbehind
        exact hbehind rfl
  · obtain ⟨root, declared, hhead, hdeclared, hnone, hempty⟩ := h.first
    rw [List.head?_eq_getElem?] at hhead ⊢
    by_cases hk0 : k = 0
    · subst hk0
      exact ⟨name, _, rfl, (Definition.get?_insertVersion fresh).trans (if_pos rfl), rfl,
        hroot rfl⟩
    · refine ⟨root, _, ?_, Definition.get?_insertVersion_of_get? fresh hdeclared, ?_⟩
      · rw [List.getElem?_insertIdx_of_lt (Nat.pos_of_ne_zero hk0), hhead]
      · have hfront : declared.previous ≠ listedBefore order k := by
          rw [hnone, listedBefore, if_neg hk0, List.getElem?_eq_getElem (by omega)]
          exact nofun
        rw [VersionDecl.relink, if_neg hfront]
        exact ⟨hnone, hempty⟩
  · have hlast := h.last
    rw [List.getLast?_eq_getElem?] at hlast ⊢
    rw [List.length_insertIdx_of_le_length hk, Nat.add_sub_cancel, Definition.insertVersion]
    dsimp only
    have hpos : order.length - 1 < order.length := (List.getElem?_eq_some_iff.mp hlast).1
    by_cases hend : k = order.length
    · -- behind the last version, so the new one is the last
      have hbefore : listedBefore order k = some definition.currentVersion := by
        rw [listedBefore, if_neg (by omega), hend, hlast]
      rw [if_pos hbefore, ← hend, List.getElem?_insertIdx_self, if_pos hk]
    · have hbefore : listedBefore order k ≠ some definition.currentVersion := fun hbefore => by
        have hplace := h.eq_of_listedBefore hlast hbefore
        omega
      rw [if_neg hbefore, List.getElem?_insertIdx_of_gt (by omega), hlast]

/-- **A chain with one more version** at a place, with a name and transformations of its own. All
other versions have the names and the transformations that they had. -/
structure Inserts (chain chain' : Chain) (k : Nat) (name : String) (steps : List Step) : Prop where
  le_size : k ≤ chain.size
  size : chain'.size = chain.size + 1
  new : ∃ version, chain'.get? k = some version ∧ version.name = name ∧
    version.transformations = steps
  kept : ∀ {v version}, chain.get? v = some version → ∃ version',
    chain'.get? (shift k v) = some version' ∧ version'.name = version.name ∧
      version'.transformations = version.transformations

/-- A version of the longer chain is the new one, or one that was there before. -/
theorem Inserts.cases_get? {chain chain' : Chain} {steps : List Step} {w : Nat} {found : Version}
    (h : chain.Inserts chain' k name steps) (hfound : chain'.get? w = some found) :
    w = k ∧ found.transformations = steps ∨ ∃ v version, w = shift k v ∧
      chain.get? v = some version ∧ found.name = version.name ∧
        found.transformations = version.transformations := by
  by_cases hw : w = k
  · subst hw
    obtain ⟨new, hnew, -, hsteps⟩ := h.new
    obtain rfl := Option.some.inj (hfound.symm.trans hnew)
    exact .inl ⟨rfl, hsteps⟩
  · obtain ⟨v, rfl⟩ := exists_shift_eq hw
    have hlt : shift k v < chain'.size := (List.getElem?_eq_some_iff.mp hfound).1
    have hv : v < chain.size := (shift_lt_succ_iff h.le_size).mp (h.size ▸ hlt)
    have hversion : chain.get? v = some _ := List.getElem?_eq_getElem hv
    obtain ⟨version', hversion', hname, hsteps⟩ := h.kept hversion
    obtain rfl := Option.some.inj (hfound.symm.trans hversion')
    exact .inr ⟨v, _, rfl, hversion, hname, hsteps⟩

/-- **The chain of the schema with one more version.** -/
theorem Enumerates.inserts (h : Enumerates definition order) (hk : k ≤ order.length)
    (hroot : k = 0 → version.transformations = []) (fresh : name ∉ definition.versions) :
    (ofOrder definition.versions order).Inserts
      (ofOrder (definition.insertVersion (listedBefore order k) place name version fresh).versions
        (order.insertIdx k name)) k name version.transformations := by
  have horder : Enumerates
      (definition.insertVersion (listedBefore order k) place name version fresh)
      (order.insertIdx k name) := h.insertIdx hk hroot fresh
  refine ⟨?_, ?_, ?_, ?_⟩
  · rwa [size_ofOrder]
  · rw [size_ofOrder, size_ofOrder, List.length_insertIdx_of_le_length hk]
  · have hname : (order.insertIdx k name)[k]? = some name := by
      rw [List.getElem?_insertIdx_self, if_pos hk]
    obtain ⟨declared, hdeclared, hget⟩ := horder.get?_ofOrder hname
    rw [Definition.get?_insertVersion, if_pos rfl] at hdeclared
    obtain rfl := Option.some.inj hdeclared
    exact ⟨_, hget, rfl, rfl⟩
  · intro v own hown
    obtain ⟨other, hother, -⟩ := exists_of_get?_ofOrder hown
    obtain ⟨declared, hdeclared, hget⟩ := h.get?_ofOrder hother
    obtain rfl := Option.some.inj (hget.symm.trans hown)
    have hplace : (order.insertIdx k name)[shift k v]? = some other := by
      rw [getElem?_insertIdx_shift, hother]
    obtain ⟨declared', hdeclared', hget'⟩ := horder.get?_ofOrder hplace
    rw [Definition.get?_insertVersion_of_get? fresh hdeclared] at hdeclared'
    obtain rfl := Option.some.inj hdeclared'
    refine ⟨_, hget', rfl, ?_⟩
    show (VersionDecl.relink _ _ _).transformations = declared.transformations
    unfold VersionDecl.relink
    split <;> rfl

/-- The version in front of a place of a chain; none in front of the first. -/
def before? (chain : Chain) (k : Nat) : Option String :=
  if k = 0 then none else (chain.get? (k - 1)).map Version.name

theorem before?_ofOrder (declared : Declared) (order : List String) (k : Nat) :
    (ofOrder declared order).before? k = listedBefore order k := by
  have hname : Version.name ∘ versionAt declared order.length (k - 1) = id := rfl
  rw [before?, listedBefore, ofOrder, get?, List.getElem?_mapIdx, Option.map_map, hname,
    Option.map_id_apply]

/-- **A version is inserted at any place of a chain that was found**, if it transforms nothing in
front of all others. -/
theorem exists_ofDefinition_insertVersion {chain : Chain} (h : ofDefinition definition = .ok chain)
    (hk : k ≤ chain.size) (hroot : k = 0 → version.transformations = [])
    (fresh : name ∉ definition.versions) :
    ∃ chain', ofDefinition (definition.insertVersion (chain.before? k) place name version fresh) =
      .ok chain' ∧ chain.Inserts chain' k name version.transformations := by
  obtain ⟨order, horder, rfl⟩ := enumerates_of_ofDefinition h
  rw [size_ofOrder] at hk
  rw [before?_ofOrder]
  exact ⟨_, (horder.insertIdx hk hroot fresh).ofDefinition_eq, horder.inserts hk hroot fresh⟩

/-! ### The code that is called -/

/-- The places of all versions but the new one are those of the versions before. -/
theorem Inserts.transformations_eq {chain chain' : Chain} {steps : List Step}
    (h : chain.Inserts chain' k name steps) : chain'.versions.map Version.transformations =
      (chain.versions.map Version.transformations).insertIdx k steps := by
  have hle : k ≤ chain.versions.length := h.le_size
  have hsize : chain'.versions.length = chain.versions.length + 1 := h.size
  refine List.ext_getElem? fun w => ?_
  by_cases hw : w = k
  · subst hw
    obtain ⟨version, hversion, -, hsteps⟩ := h.new
    have hversion : chain'.versions[w]? = some version := hversion
    rw [List.getElem?_map, hversion, Option.map_some, hsteps, List.getElem?_insertIdx_self,
      List.length_map, if_pos hle]
  · obtain ⟨v, rfl⟩ := exists_shift_eq hw
    rw [getElem?_insertIdx_shift, List.getElem?_map, List.getElem?_map]
    cases hversion : chain.versions[v]? with
    | none =>
      have hlt := List.getElem?_eq_none_iff.mp hversion
      rw [List.getElem?_eq_none (by rw [shift, if_neg (by omega)]; omega)]
    | some version =>
      obtain ⟨version', hversion', -, hsteps⟩ := h.kept hversion
      have hversion' : chain'.versions[shift k v]? = some version' := hversion'
      rw [hversion', Option.map_some, Option.map_some, hsteps]

end Chain

namespace CodeRef

/-- The code that transformations call, in order. -/
def called (steps : List Step) : List CodeRef := steps.filterMap fun step => step.change.code?

theorem registry_eq_of_transformations {chain : Chain} :
    registry chain = ((chain.versions.map Version.transformations).flatMap called).foldl
      (fun seen code => if seen.contains code then seen else seen ++ [code]) [] := by
  rw [registry, List.flatMap_map]
  rfl

end CodeRef

namespace Chain.Inserts

variable {chain chain' : Chain} {k : Nat} {name : String} {steps : List Step}

/-- Nothing is called in a list that is empty. -/
theorem flatMap_insertIdx_nil (items : List (List Step)) (k : Nat) :
    (items.insertIdx k []).flatMap CodeRef.called = items.flatMap CodeRef.called := by
  induction items generalizing k with
  | nil => cases k <;> rfl
  | cons first rest ih =>
    cases k with
    | zero => rfl
    | succ k => rw [List.insertIdx_succ_cons, List.flatMap_cons, List.flatMap_cons, ih]

/-- **A version without transformations calls no code.** -/
theorem registry_eq (h : chain.Inserts chain' k name []) :
    CodeRef.registry chain' = CodeRef.registry chain := by
  rw [CodeRef.registry_eq_of_transformations, CodeRef.registry_eq_of_transformations,
    h.transformations_eq, flatMap_insertIdx_nil]

/-- **A version at the end calls its code behind all other code.** -/
theorem prefix_registry (h : chain.Inserts chain' chain.size name steps) :
    CodeRef.registry chain <+: CodeRef.registry chain' := by
  have hlength : chain.size = (chain.versions.map Version.transformations).length :=
    (List.length_map _).symm
  rw [CodeRef.registry_eq_of_transformations, CodeRef.registry_eq_of_transformations,
    h.transformations_eq, hlength, List.insertIdx_length_self, List.flatMap_append,
    List.foldl_append]
  exact prefix_foldl_addUnlessSeen _ _

end Chain.Inserts

/-! ## The schema with its history -/

/-- **A schema with one more version**: all that is declared besides the versions is the same. -/
structure Replayed.Inserts (replayed replayed' : Replayed) (k : Nat) (name : String)
    (steps : List Step) : Prop where
  catalog : replayed'.definition.catalog = replayed.definition.catalog
  interfaces : replayed'.definition.interfaces = replayed.definition.interfaces
  baseTypes : replayed'.definition.baseTypes = replayed.definition.baseTypes
  superTypes : replayed'.definition.superTypes = replayed.definition.superTypes
  customTypes : replayed'.definition.customTypes = replayed.definition.customTypes
  chain : replayed.chain.Inserts replayed'.chain k name steps

namespace Replayed.Inserts

variable {replayed replayed' : Replayed} {k : Nat} {name : String} {steps : List Step}
  (h : replayed.Inserts replayed' k name steps)

include h

/-- **A schema is part of the one with one more version**, once its layouts are. -/
theorem embeds (hlayouts : ∀ {v type layout}, replayed.history.layout? v type = some layout →
    ∃ v', replayed'.history.layout? v' type = some layout) : replayed.Embeds replayed' where
  catalog := h.catalog
  superTypes := h.superTypes
  typeRefs {ref} href := by
    rw [mem_typeRefs_iff] at href ⊢
    rcases href with ⟨v, type, layout, hlayout, href⟩ | ⟨v, version, hversion, hstep⟩ | hinterface
    · obtain ⟨v', hlayout'⟩ := hlayouts hlayout
      exact .inl ⟨v', type, layout, hlayout', href⟩
    · obtain ⟨version', hversion', -, hsteps⟩ := h.chain.kept hversion
      exact .inr (.inl ⟨_, version', hversion', by rwa [hsteps]⟩)
    · exact .inr (.inr (by rwa [h.interfaces]))

/-- The first stages of both histories are the same. -/
theorem stages_zero (hr : replayed.Sound) (hr' : replayed'.Sound) :
    replayed'.history.stages[0]? = replayed.history.stages[0]? := by
  obtain ⟨⟨layouts, changed, transformations⟩, hstage, hlayouts, hchanged, hsteps⟩ :=
    hr.history.first
  obtain ⟨⟨layouts', changed', transformations'⟩, hstage', hlayouts', hchanged', hsteps'⟩ :=
    hr'.history.first
  dsimp only at hlayouts hchanged hsteps hlayouts' hchanged' hsteps'
  rw [hstage, hstage', hlayouts, hlayouts', hchanged, hchanged', hsteps, hsteps',
    History.initialLayouts, History.initialLayouts, h.baseTypes]

end Replayed.Inserts

end SchemaEvolution

import SchemaEvolution.Definition

/-!
# The chain of versions

Each version but the first continues another one. Together they have to form a single chain
that leads from the first version through all of them to the current one.

## Main definitions

* `Version`: a version at its place in the chain
* `Chain`: the versions in order
* `Chain.follow`: the versions that are reached from one, in order
* `Chain.ofDefinition`: the chain of a schema, or why there is none

## Main results

* `Chain.unseen_lt`: each version that is followed leaves fewer to follow, so the walk ends
  on every declaration of versions, also on one with a circle
-/

namespace SchemaEvolution

/-- A version at its place in the chain. -/
structure Version where
  index : Nat
  name : String
  previous : Option String
  isCurrent : Bool
  /-- What turns the layouts of the version before into those of this one. -/
  transformations : List Step
  changelog : Option String
  deriving DecidableEq, Repr, Inhabited

/-- **The versions of a schema**, in chain order; the last one is current. -/
structure Chain where
  versions : List Version
  deriving DecidableEq, Repr, Inhabited

namespace Chain

/-! ## The versions by place and by name -/

/-- The number of versions. -/
def size (chain : Chain) : Nat := chain.versions.length

/-- The version at a place. -/
def get? (chain : Chain) (index : Nat) : Option Version := chain.versions[index]?

/-- The version of a name. -/
def byName? (chain : Chain) (name : String) : Option Version :=
  chain.versions.find? fun version => version.name == name

/-- The place of the current version. -/
def currentIndex (chain : Chain) : Nat := chain.size - 1

/-- The current version. -/
def current? (chain : Chain) : Option Version := chain.get? chain.currentIndex

/-- The name of the version at a place, for messages; a question mark where there is none. -/
def nameOf (chain : Chain) (index : Nat) : String :=
  ((chain.get? index).map Version.name).getD "?"

/-! ## Finding the chain -/

/-- The declared versions. -/
abbrev Declared := OrderedMap VersionDecl

/-- Every version continues one that is declared. -/
def checkPrevious (declared : Declared) : List (String × VersionDecl) → Except SchemaError Unit
  | [] => .ok ()
  | (name, version) :: rest =>
    match version.previous with
    | none => checkPrevious declared rest
    | some previous =>
      if previous ∈ declared then checkPrevious declared rest
      else .error (.unknownVersion name previous)

/-- The versions that continue no other. -/
def roots (declared : Declared) : List String :=
  (declared.entries.filter fun entry => entry.2.previous.isNone).map Prod.fst

/-- The one version that continues no other. -/
def root (declared : Declared) : Except SchemaError String :=
  match roots declared with
  | [] => .error .noRoot
  | [root] => .ok root
  | names => .error (.multipleRoots names)

/-- The first version that continues a given one. -/
def next? (entries : List (String × VersionDecl)) (previous : String) : Option String :=
  (entries.find? fun entry => entry.2.previous == some previous).map Prod.fst

/-- No version is continued by two; `before` are the entries in front. -/
def checkNext (before : List (String × VersionDecl)) :
    List (String × VersionDecl) → Except SchemaError Unit
  | [] => .ok ()
  | (name, version) :: rest =>
    match version.previous with
    | none => checkNext (before ++ [(name, version)]) rest
    | some previous =>
      match next? before previous with
      | some first => .error (.multipleNext previous first name)
      | none => checkNext (before ++ [(name, version)]) rest

/-- The first version has nothing to transform. -/
def checkRoot (declared : Declared) (root : String) : Except SchemaError Unit :=
  match declared.get? root with
  | none => .ok ()
  | some version =>
    if version.transformations.isEmpty then .ok () else .error (.rootHasTransformations root)

/-- The declared versions that are not among those seen. -/
def unseen (declared : Declared) (seen : List String) : List String :=
  declared.keys.filter fun name => !seen.contains name

theorem mem_of_next? {declared : Declared} {previous name : String}
    (found : next? declared.entries previous = some name) : name ∈ declared := by
  obtain ⟨entry, isNext, rfl⟩ := Option.map_eq_some_iff.mp found
  exact List.mem_map_of_mem (List.mem_of_find?_eq_some isNext)

/-- Seeing one more declared version leaves fewer unseen. -/
theorem unseen_lt {declared : Declared} {seen : List String} {name : String}
    (fresh : ¬seen.contains name) (isDeclared : name ∈ declared) :
    (unseen declared (seen ++ [name])).length < (unseen declared seen).length := by
  have less : unseen declared (seen ++ [name]) =
      (unseen declared seen).filter fun other => !(other == name) := by
    simp only [unseen, List.filter_filter]
    congr 1
    funext other
    by_cases same : other = name <;> simp [same]
  rw [less, List.length_filter_lt_length_iff_exists]
  refine ⟨name, List.mem_filter.mpr ⟨isDeclared, ?_⟩, by simp⟩
  simpa using fresh

/-- **The versions that are reached from one**, in order: `seen` so far, of which `last` is
the last. The walk stops where no version continues the last one, or only one seen before. -/
def follow (declared : Declared) (seen : List String) (last : String) : List String :=
  match _found : next? declared.entries last with
  | none => seen
  | some name =>
    if _known : seen.contains name then seen
    else follow declared (seen ++ [name]) name
  termination_by (unseen declared seen).length
  decreasing_by exact unseen_lt _known (mem_of_next? _found)

/-- The version of a name at its place among `count` versions. -/
def versionAt (declared : Declared) (count index : Nat) (name : String) : Version :=
  let version := (declared.get? name).getD ⟨none, [], none⟩
  { index, name
    previous := version.previous
    isCurrent := index + 1 == count
    transformations := version.transformations
    changelog := version.changelog }

/-- **The chain of a schema.** -/
def ofDefinition (definition : Definition) : Except SchemaError Chain := do
  let declared := definition.versions
  checkPrevious declared declared.entries
  let root ← root declared
  checkNext [] declared.entries
  checkRoot declared root
  let order := follow declared [root] root
  let last := order.getLast?.getD ""
  if last != definition.currentVersion || order.length != declared.size then
    throw (.currentMismatch definition.currentVersion last order.length declared.size)
  return ⟨order.mapIdx fun index name => versionAt declared order.length index name⟩

end Chain

end SchemaEvolution

/-!
# Maps in declaration order

The fields of a type keep the order in which they are declared, and so do the sections of a
schema. An ordered map is a list of entries with pairwise distinct names; its order is part
of its value.

## Main definitions

* `OrderedMap`: entries with distinct names, in order
* `OrderedMap.insert`: a repeated name keeps its first place and takes the last value
* `OrderedMap.erase`, `OrderedMap.insertAt`, `OrderedMap.replace`: field operations, which
  keep the relative order of all other entries
* `OrderedMap.agrees`: equality up to order

## Main results

* `OrderedMap.keys_insertAt`, `OrderedMap.keys_replace`, `OrderedMap.keys_erase`: the names
  after each operation
-/

namespace SchemaEvolution

universe u v w

/-- One more item, unless it has been seen. -/
def addUnlessSeen {α : Type u} [BEq α] (seen : List α) (item : α) : List α :=
  if seen.contains item then seen else seen ++ [item]

theorem addUnlessSeen_of_mem {α : Type u} [BEq α] [LawfulBEq α] {seen : List α} {item : α}
    (h : item ∈ seen) : addUnlessSeen seen item = seen :=
  if_pos (List.contains_iff_mem.mpr h)

theorem addUnlessSeen_of_not_mem {α : Type u} [BEq α] [LawfulBEq α] {seen : List α}
    {item : α} (h : item ∉ seen) : addUnlessSeen seen item = seen ++ [item] :=
  if_neg (mt List.contains_iff_mem.mp h)

/-- **An ordered map**: named values in order, no name twice. -/
@[ext]
structure OrderedMap (α : Type u) where
  /-- The entries, in order. -/
  entries : List (String × α)
  /-- No name occurs twice. -/
  distinct : (entries.map Prod.fst).Nodup
  deriving DecidableEq, Repr

namespace OrderedMap

variable {α : Type u} {β : Type v} {ε : Type w}

/-- The map without entries. -/
def empty : OrderedMap α := ⟨[], List.nodup_nil⟩

instance : EmptyCollection (OrderedMap α) := ⟨empty⟩

instance : Inhabited (OrderedMap α) := ⟨empty⟩

/-- The names, in order. -/
def keys (map : OrderedMap α) : List String := map.entries.map Prod.fst

/-- The values, in order. -/
def values (map : OrderedMap α) : List α := map.entries.map Prod.snd

/-- The number of entries. -/
def size (map : OrderedMap α) : Nat := map.entries.length

/-- A name is in a map when an entry carries it. -/
instance : Membership String (OrderedMap α) := ⟨fun map key => key ∈ map.keys⟩

instance (key : String) (map : OrderedMap α) : Decidable (key ∈ map) :=
  inferInstanceAs (Decidable (key ∈ map.keys))

theorem mem_iff_mem_keys {map : OrderedMap α} {key : String} : key ∈ map ↔ key ∈ map.keys :=
  Iff.rfl

/-- The value under a name. -/
def get? (map : OrderedMap α) (key : String) : Option α := map.entries.lookup key

/-- The place and the value of the entry with a name, counting places from `start`. -/
def slotFrom (key : String) : Nat → List (String × α) → Option (Nat × α)
  | _, [] => none
  | start, (name, value) :: rest =>
    if name = key then some (start, value) else slotFrom key (start + 1) rest

/-- The place and the value of the entry with a name. -/
def slot? (map : OrderedMap α) (key : String) : Option (Nat × α) :=
  slotFrom key 0 map.entries

/-! ## Operations that keep the order of the other entries -/

/-- The map without the entry of a name. -/
def erase (map : OrderedMap α) (key : String) : OrderedMap α where
  entries := map.entries.filter fun entry => entry.1 != key
  distinct := (List.filter_sublist.map Prod.fst).nodup map.distinct

/-- The map with a new entry in front of the one at a place, or at the end. -/
def insertAt (map : OrderedMap α) (place : Nat) (key : String) (value : α) (fresh : key ∉ map) :
    OrderedMap α where
  entries := map.entries.take place ++ (key, value) :: map.entries.drop place
  distinct := by
    rw [List.map_append, List.map_cons, List.perm_middle.nodup_iff, ← List.map_append,
      List.take_append_drop]
    exact List.nodup_cons.mpr ⟨fresh, map.distinct⟩

/-- The entry with the value under a name exchanged. -/
def replaceEntry (key : String) (value : α) (entry : String × α) : String × α :=
  if entry.1 = key then (entry.1, value) else entry

@[simp] theorem replaceEntry_fst (key : String) (value : α) (entry : String × α) :
    (replaceEntry key value entry).1 = entry.1 := by
  unfold replaceEntry
  split <;> rfl

/-- The map with the value under a name exchanged. -/
def replace (map : OrderedMap α) (key : String) (value : α) : OrderedMap α where
  entries := map.entries.map (replaceEntry key value)
  distinct := by
    have names : Prod.fst ∘ replaceEntry key value = Prod.fst :=
      funext fun entry => replaceEntry_fst key value entry
    rw [List.map_map, names]
    exact map.distinct

@[simp] theorem keys_erase (map : OrderedMap α) (key : String) :
    (map.erase key).keys = map.keys.filter (· != key) := by
  simp [keys, erase, List.filter_map, Function.comp_def]

@[simp] theorem keys_insertAt (map : OrderedMap α) (place : Nat) (key : String) (value : α)
    (fresh : key ∉ map) :
    (map.insertAt place key value fresh).keys =
      map.keys.take place ++ key :: map.keys.drop place := by
  simp [keys, insertAt, List.map_take, List.map_drop]

@[simp] theorem keys_replace (map : OrderedMap α) (key : String) (value : α) :
    (map.replace key value).keys = map.keys := by
  have names : Prod.fst ∘ replaceEntry key value = Prod.fst :=
    funext fun entry => replaceEntry_fst key value entry
  simp [keys, replace, names]

/-- The map with a value under a name: in place when the name is there, else at the end. -/
def insert (map : OrderedMap α) (key : String) (value : α) : OrderedMap α :=
  if fresh : key ∈ map then map.replace key value else map.insertAt map.size key value fresh

/-- The map of a list of entries; a repeated name keeps its first place and its last value. -/
def ofList (entries : List (String × α)) : OrderedMap α :=
  entries.foldl (fun map entry => map.insert entry.1 entry.2) empty

/-! ## Operations on the values -/

/-- The map with a function applied to every value. -/
def map (f : α → β) (m : OrderedMap α) : OrderedMap β where
  entries := m.entries.map fun entry => (entry.1, f entry.2)
  distinct := by
    rw [List.map_map]
    exact m.distinct

@[simp] theorem keys_map (f : α → β) (m : OrderedMap α) : (m.map f).keys = m.keys := by
  simp [keys, map, Function.comp_def]

/-- Entries with a function applied to every name and value, which may fail; the first
failure in order is the answer, and the names stay. -/
def traverseEntries (f : String → α → Except ε β) :
    (entries : List (String × α)) →
      Except ε { out : List (String × β) // out.map Prod.fst = entries.map Prod.fst }
  | [] => .ok ⟨[], rfl⟩
  | (name, value) :: rest =>
    match f name value with
    | .error e => .error e
    | .ok value' =>
      match traverseEntries f rest with
      | .error e => .error e
      | .ok out => .ok ⟨(name, value') :: out.1, by simp [out.2]⟩

/-- The map with a function applied to every value, which may fail; the first failure in
order is the answer. -/
def traverse (f : String → α → Except ε β) (m : OrderedMap α) : Except ε (OrderedMap β) :=
  match traverseEntries f m.entries with
  | .error e => .error e
  | .ok out => .ok ⟨out.1, by rw [out.2]; exact m.distinct⟩

/-- Whether two maps have the same entries, in whatever order. -/
def agrees [DecidableEq α] (first second : OrderedMap α) : Bool :=
  first.size == second.size &&
    first.entries.all fun entry => second.get? entry.1 == some entry.2

end OrderedMap

end SchemaEvolution

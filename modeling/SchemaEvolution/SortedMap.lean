/-!
# Maps and sets of names in ascending order

Names are ordered by their code points. A sorted map lists its entries by strictly
ascending name, so that equal contents are equal lists and every walk over it is in order.

## Main definitions

* `SortedMap`: entries by strictly ascending name
* `SortedMap.insert`, `SortedMap.insertNew`: entering a value, or only if there is none
* `NameSet`: a set of names, as a sorted map to nothing

## Main results

* `SortedMap.mem_keys_insert`, `SortedMap.get?_insert`: the names and the look-ups after an
  insertion
-/

namespace SchemaEvolution

universe u v

/-- **A sorted map**: named values by strictly ascending name. -/
@[ext]
structure SortedMap (α : Type u) where
  /-- The entries, by name. -/
  entries : List (String × α)
  /-- The names ascend strictly. -/
  ascending : (entries.map Prod.fst).Pairwise (· < ·)
  deriving DecidableEq, Repr

theorem lookup_cons_eq {α : Type u} (name : String) (first : α) (rest : List (String × α))
    (key : String) : ((name, first) :: rest).lookup key =
      if key = name then some first else rest.lookup key := by
  by_cases hk : key = name
  · simp [hk]
  · rw [List.lookup_cons, beq_false_of_ne hk, if_neg hk]

namespace SortedMap

variable {α : Type u} {β : Type v}

/-- The map without entries. -/
def empty : SortedMap α := ⟨[], List.Pairwise.nil⟩

instance : EmptyCollection (SortedMap α) := ⟨empty⟩

instance : Inhabited (SortedMap α) := ⟨empty⟩

/-- The names, ascending. -/
def keys (map : SortedMap α) : List String := map.entries.map Prod.fst

theorem distinct (m : SortedMap α) : (m.entries.map Prod.fst).Nodup :=
  m.ascending.imp fun h => String.ne_of_lt h

/-- The number of entries. -/
def size (map : SortedMap α) : Nat := map.entries.length

/-- A name is in a map when an entry carries it. -/
instance : Membership String (SortedMap α) := ⟨fun map key => key ∈ map.keys⟩

instance (key : String) (map : SortedMap α) : Decidable (key ∈ map) :=
  inferInstanceAs (Decidable (key ∈ map.keys))

/-- The value under a name. -/
def get? (map : SortedMap α) (key : String) : Option α := map.entries.lookup key

/-- Entries by ascending name with a value under a name, which replaces one that is there. -/
def insertEntry (key : String) (value : α) : List (String × α) → List (String × α)
  | [] => [(key, value)]
  | (name, old) :: rest =>
    if key < name then (key, value) :: (name, old) :: rest
    else if key = name then (key, value) :: rest
    else (name, old) :: insertEntry key value rest

theorem mem_names_insertEntry {key : String} {value : α} {entries : List (String × α)}
    {name : String} :
    name ∈ (insertEntry key value entries).map Prod.fst ↔
      name = key ∨ name ∈ entries.map Prod.fst := by
  induction entries with
  | nil => simp [insertEntry]
  | cons entry rest ih =>
    obtain ⟨first, old⟩ := entry
    unfold insertEntry
    split
    · simp
    · split
      · rename_i same
        subst same
        simp
      · simp only [List.map_cons, List.mem_cons, ih]
        exact or_left_comm

theorem ascending_insertEntry (key : String) (value : α) {entries : List (String × α)}
    (ascending : (entries.map Prod.fst).Pairwise (· < ·)) :
    ((insertEntry key value entries).map Prod.fst).Pairwise (· < ·) := by
  induction entries with
  | nil => simp [insertEntry]
  | cons entry rest ih =>
    obtain ⟨first, old⟩ := entry
    obtain ⟨below, later⟩ := List.pairwise_cons.mp ascending
    unfold insertEntry
    split
    · rename_i less
      refine List.pairwise_cons.mpr ⟨fun name mem => ?_, ascending⟩
      rcases List.mem_cons.mp mem with rfl | mem
      · exact less
      · exact String.lt_trans less (below name mem)
    · split
      · rename_i same
        subst same
        exact List.pairwise_cons.mpr ⟨below, later⟩
      · rename_i notLess differs
        refine List.pairwise_cons.mpr ⟨fun name mem => ?_, ih later⟩
        rcases mem_names_insertEntry.mp mem with rfl | mem
        · exact Std.lt_of_le_of_ne (String.not_lt.mp notLess) (Ne.symm differs)
        · exact below name mem

/-- The map with a value under a name, which replaces one that is there. -/
def insert (map : SortedMap α) (key : String) (value : α) : SortedMap α where
  entries := insertEntry key value map.entries
  ascending := ascending_insertEntry key value map.ascending

@[simp] theorem mem_keys_insert {map : SortedMap α} {key : String} {value : α} {name : String} :
    name ∈ (map.insert key value).keys ↔ name = key ∨ name ∈ map.keys :=
  mem_names_insertEntry

theorem lookup_insertEntry {key name : String} {value : α} (entries : List (String × α)) :
    (insertEntry key value entries).lookup name =
      if name = key then some value else entries.lookup name := by
  induction entries with
  | nil => rw [insertEntry, lookup_cons_eq]
  | cons entry rest ih =>
    obtain ⟨first, old⟩ := entry
    unfold insertEntry
    -- the new entry stands in front, in the place of the first, or further behind
    split
    · rw [lookup_cons_eq]
    · split
      · rename_i hsame
        subst hsame
        by_cases h : name = key <;> simp [lookup_cons_eq, h]
      · rename_i hdiffer
        rw [lookup_cons_eq, ih, lookup_cons_eq]
        by_cases h : name = first
        · subst h
          simp [Ne.symm hdiffer]
        · simp [h]

theorem get?_insert {map : SortedMap α} {key name : String} {value : α} :
    (map.insert key value).get? name = if name = key then some value else map.get? name :=
  lookup_insertEntry map.entries

/-- The map with a value under a name, unless there is one already. -/
def insertNew (map : SortedMap α) (key : String) (value : α) : SortedMap α :=
  if key ∈ map then map else map.insert key value

/-- The map of a list of entries; of a repeated name the last value counts. -/
def ofList (entries : List (String × α)) : SortedMap α :=
  entries.foldl (fun map entry => map.insert entry.1 entry.2) empty

/-- The map with a function applied to every name and value. -/
def map (f : String → α → β) (m : SortedMap α) : SortedMap β where
  entries := m.entries.map fun entry => (entry.1, f entry.1 entry.2)
  ascending := by
    rw [List.map_map]
    exact m.ascending

@[simp] theorem keys_map (f : String → α → β) (m : SortedMap α) : (m.map f).keys = m.keys := by
  simp [keys, map, Function.comp_def]

end SortedMap

/-- **A set of names**, kept in ascending order. -/
abbrev NameSet := SortedMap Unit

namespace NameSet

/-- The set with one more name. -/
def add (set : NameSet) (name : String) : NameSet := set.insert name ()

/-- The set of the names in a list. -/
def ofNames (names : List String) : NameSet := names.foldl add SortedMap.empty

/-- The names of a set, ascending. -/
def names (set : NameSet) : List String := set.keys

end NameSet

end SchemaEvolution

import SchemaEvolution.Document.Reading
import SchemaEvolution.Document.Toml.Text

/-!
# The tables of a TOML document

A document opens tables by headers and fills them by entries. How a table came about decides
who may add to it: a header opens each table once, and a key with several names adds to a
table that such keys made, never to one with a header of its own. A table that only the
headers of tables within it have implied may still get its own header, and then takes its
place from there.

## Main definitions

* `Toml.Origin`: how a table came about
* `Toml.Item`, `Toml.Members`: what a name stands for, and the names of a table in order
* `Toml.Members.within`: a change to the table at the end of a path
* `Toml.Members.enter`, `Toml.Members.openTable`, `Toml.Members.openElement`: an entry, a header,
  and a header of one more element
* `Toml.Members.readings`: the readings of all members
-/

namespace SchemaEvolution.Toml

/-- **How a table came about.** -/
inductive Origin where
  /-- By a header of its own. -/
  | header
  /-- By the header of a table within it. -/
  | implied
  /-- By a key with several names. -/
  | dotted
  deriving DecidableEq, Repr

/-- **What a name stands for** within a table. -/
inductive Item where
  | value (reading : Reading)
  | table (origin : Origin) (members : List (String × Item))
  /-- Tables under one name, the last first. -/
  | tables (elements : List (List (String × Item)))

/-- The names of a table and what they stand for, in order. -/
abbrev Members := List (String × Item)

namespace Members

/-- Changes what a name stands for; a new name comes last. -/
def alter (name : String) (change : Option Item → Option Item) : Members → Option Members
  | [] => (change none).map fun item => [(name, item)]
  | (key, item) :: rest =>
    if key = name then (change (some item)).map fun item => (key, item) :: rest
    else (alter name change rest).map ((key, item) :: ·)

/-- **Changes the table at the end of a path**, which begins in a table of the given origin.
Tables that are missing on the way are made, with the origin `step`; of tables under one name
the last is meant. A path of a dotted key does not lead through a table with a header of its
own, and no path leads through a value. -/
def within (step : Origin) (change : Origin → Members → Option Members) :
    (path : List String) → Origin → Members → Option Members
  | [], origin, members => change origin members
  | name :: path, _, members =>
    members.alter name fun
      | none => (within step change path step []).map (.table step)
      | some (.value _) => none
      | some (.table origin inner) =>
        if step = .dotted ∧ origin = .header then none
        else (within step change path origin inner).map (.table origin)
      | some (.tables []) => none
      | some (.tables (last :: before)) =>
        (within step change path .header last).map fun last => .tables (last :: before)

/-- A new name. -/
def add (name : String) (item : Item) (members : Members) : Option Members :=
  members.alter name fun
    | none => some item
    | some _ => none

/-- **An entry**: a value under a key, whose name is new. Only a key with several names may
enter into a table that such keys made. -/
def enter (key : Key) (value : Reading) (members : Members) : Option Members :=
  members.within .dotted
    (fun origin inner =>
      if (origin == .dotted) == key.path.isEmpty then none else inner.add key.name (.value value))
    key.path .header

/-- **A header** opens a table that is new or implied; it comes last. -/
def openTable (key : Key) (members : Members) : Option Members :=
  members.within .implied
    (fun _ siblings =>
      match siblings.lookup key.name with
      | none => some (siblings ++ [(key.name, .table .header [])])
      | some (.table .implied inner) =>
        some (siblings.filter (·.1 ≠ key.name) ++ [(key.name, .table .header inner)])
      | some _ => none)
    key.path .header

/-- **A header of one more element** opens a table behind those under the same name. -/
def openElement (key : Key) (members : Members) : Option Members :=
  members.within .implied
    (fun _ siblings => siblings.alter key.name fun
      | none => some (.tables [[]])
      | some (.tables elements) => some (.tables ([] :: elements))
      | some _ => none)
    key.path .header

end Members

/-! ## Readings -/

mutual

/-- How an item is read. -/
def Item.reading : Item → Reading
  | .value reading => reading
  | .table _ members => .table (Members.readings members) true
  | .tables elements => .sequence (Members.elementReadings elements).reverse true

/-- How the members of a table are read. -/
def Members.readings : List (String × Item) → List (String × Reading)
  | [] => []
  | (name, item) :: rest => (name, item.reading) :: Members.readings rest

/-- How tables are read. -/
def Members.elementReadings : List (List (String × Item)) → List Reading
  | [] => []
  | members :: rest => .table (Members.readings members) true :: Members.elementReadings rest

end

end SchemaEvolution.Toml

/-!
# What has been read of a document

A document is decoded while it is read, so that of two faults the one that comes first in
the text counts, be it a fault of the notation or of the content. A *reading* therefore
keeps what stands before a fault of notation, and where it was broken off.

## Main definitions

* `Reading`: a value as far as it could be read
* `Reading.isWhole`: nothing inside a value was broken off
* `DocumentFormat`: the two notations of documents
-/

namespace SchemaEvolution

/-- The notations in which a schema may be written. -/
inductive DocumentFormat where
  | json
  | toml
  deriving DecidableEq, Repr, Inhabited

/-- **A value as far as it could be read.** A sequence or table that is not `whole` was
broken off behind the items that it has; `broken` stands where no value could be read. -/
inductive Reading where
  | null
  | boolean (value : Bool)
  | integer (value : Int)
  /-- A number that is no integer, as messages show it. -/
  | number (shown : String)
  | text (value : String)
  | sequence (items : List Reading) (whole : Bool)
  | table (members : List (String × Reading)) (whole : Bool)
  | broken
  deriving Inhabited

namespace Reading

mutual

/-- Whether a value was read to its end. -/
def isWhole : Reading → Bool
  | null | boolean _ | integer _ | number _ | text _ => true
  | sequence items whole => allWhole items && whole
  | table members whole => membersWhole members && whole
  | broken => false

/-- Whether every item of a sequence was read to its end. -/
def allWhole : List Reading → Bool
  | [] => true
  | item :: rest => item.isWhole && allWhole rest

/-- Whether every value in a table was read to its end. -/
def membersWhole : List (String × Reading) → Bool
  | [] => true
  | (_, value) :: rest => value.isWhole && membersWhole rest

end

end Reading

/-- A document: its value, and whether nothing but blanks follows it. -/
structure Document where
  root : Reading
  ended : Bool

end SchemaEvolution

import SchemaEvolution.OrderedMap
import SchemaEvolution.Transformation

/-!
# Schemas as written

A schema lists the interfaces, base types, super types, custom types and versions by name.
At this level every reference is still the text that was written.

## Main definitions

* `Config`: a schema as written
* `InterfaceConfig`, `BaseTypeConfig`, `CustomTypeConfig`, `VersionConfig`: its entries
* `StepConfig`: a transformation as written
-/

namespace SchemaEvolution

/-- A transformation as written: types and code are texts. -/
abbrev StepConfig := Transformation String String

/-- An interface as written: the interfaces that it extends, and fields of its own. -/
structure InterfaceConfig where
  extended : List String := []
  fields : OrderedMap String := ∅
  deriving DecidableEq, Repr, Inhabited

/-- A base type as written: the interfaces that it implements, and its fields at the first
version. -/
structure BaseTypeConfig where
  implemented : List String := []
  fields : OrderedMap String := ∅
  deriving DecidableEq, Repr, Inhabited

/-- A custom type as written: the class that represents it and the one that encodes it. -/
structure CustomTypeConfig where
  representation : String := ""
  serializer : String := ""
  deriving DecidableEq, Repr, Inhabited

/-- A version as written: the version that it continues, what it changes, and a note. -/
structure VersionConfig where
  previous : Option String := none
  transformations : List StepConfig := []
  changelog : Option String := none
  deriving DecidableEq, Repr, Inhabited

/-- **A schema as written.** The sections keep the order of their entries; that of a base
type's fields is its layout at the first version. -/
structure Config where
  /-- The version that the chain has to end with. -/
  currentVersion : String := ""
  interfaces : OrderedMap InterfaceConfig := ∅
  baseTypes : OrderedMap BaseTypeConfig := ∅
  /-- The members of each super type; the place of a member is its discriminant. -/
  superTypes : OrderedMap (List String) := ∅
  customTypes : OrderedMap CustomTypeConfig := ∅
  versions : OrderedMap VersionConfig := ∅
  deriving DecidableEq, Repr, Inhabited

end SchemaEvolution

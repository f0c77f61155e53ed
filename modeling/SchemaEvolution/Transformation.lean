import SchemaEvolution.CodeRef
import SchemaEvolution.Error

/-!
# Field transformations

A version changes base types field by field. A change names the fields that it touches;
one that brings in a value also says of which type the value is, which code supplies it and
which fields of the old instance that code reads.

## Main definitions

* `FieldChange τ κ`: a change whose types are given as `τ` and whose code as `κ`
* `Transformation τ κ`: a change together with the base type that it targets
* `FieldChange.traverse`: the change with its types and code resolved, which may fail
-/

namespace SchemaEvolution

universe u

/-- **A change to the fields of one type.** `τ` stands for types and `κ` for code: both are
texts in a document, references in a schema and nodes in a graph. -/
inductive FieldChange (τ κ : Type) where
  /-- A field gets a new name, and with `index` a new place. -/
  | move (source target : String) (index : Option Nat)
  /-- A field arrives, at `index` or at the end. -/
  | insert (field : String) (type : τ) (initializer : κ) (context : List String)
      (index : Option Nat)
  /-- A field goes. -/
  | remove (field : String)
  /-- A field gets a new type. -/
  | convert (field : String) (type : τ) (converter : κ) (context : List String)
  deriving DecidableEq, Repr

namespace FieldChange

variable {τ κ τ' κ' : Type} {ε : Type u}

/-- The kind of a change. -/
def kind : FieldChange τ κ → ChangeKind
  | move .. => .move
  | insert .. => .insert
  | remove .. => .remove
  | convert .. => .convert

/-- The fields that the code of a change reads; they are read from the old instance. -/
def context : FieldChange τ κ → List String
  | insert _ _ _ context _ => context
  | convert _ _ _ context => context
  | move .. | remove .. => []

/-- The type that a change introduces, if it introduces one. -/
def introduced? : FieldChange τ κ → Option τ
  | insert _ type .. => some type
  | convert _ type .. => some type
  | move .. | remove .. => none

/-- The code that a change calls, if it calls any. -/
def code? : FieldChange τ κ → Option κ
  | insert _ _ initializer .. => some initializer
  | convert _ _ converter _ => some converter
  | move .. | remove .. => none

/-- The change with its type and its code resolved. What resolves them sees the context
too; a change that introduces nothing needs no resolving. -/
def traverse (resolve : τ → κ → List String → Except ε (τ' × κ')) :
    FieldChange τ κ → Except ε (FieldChange τ' κ')
  | move source target index => .ok (.move source target index)
  | remove field => .ok (.remove field)
  | insert field type initializer context index =>
    match resolve type initializer context with
    | .error e => .error e
    | .ok (type', code') => .ok (.insert field type' code' context index)
  | convert field type converter context =>
    match resolve type converter context with
    | .error e => .error e
    | .ok (type', code') => .ok (.convert field type' code' context)

end FieldChange

/-- **A transformation**: a change to the fields of a named type. -/
structure Transformation (τ κ : Type) where
  /-- The type whose fields change. -/
  type : String
  /-- What changes. -/
  change : FieldChange τ κ
  deriving DecidableEq, Repr

/-- A transformation as a schema means it: types and code are references. -/
abbrev Step := Transformation TypeRef CodeRef

end SchemaEvolution

/-!
# Slots that are written once

A row of slots is a memory for values that are found in any order. A slot is written once at most:
a second value is refused, and so is one for a slot that is not there. In the end every slot has to
have its value.

## Main definitions

* `Slots`: a row of slots, written or not
* `Slots.alloc`: one slot more
* `Slots.fill`: writing a slot
* `Slots.values`: the values of all slots
-/

namespace SchemaEvolution

universe u v

/-- **A row of slots**, each of which is written once at most. -/
structure Slots (α : Type u) where
  cells : Array (Option α)
  deriving Repr

namespace Slots

variable {α : Type u} {ε : Type v}

/-- Why a value is refused. -/
inductive Refusal where
  /-- There is no such slot. -/
  | absent
  /-- The slot is written already. -/
  | taken
  deriving DecidableEq, Repr

/-- A number of slots, none of them written. -/
def ofSize (size : Nat) : Slots α := ⟨Array.replicate size none⟩

/-- The number of slots. -/
def size (slots : Slots α) : Nat := slots.cells.size

/-- The place of one slot more, behind all others, and the row with it. -/
def alloc (slots : Slots α) : Nat × Slots α := (slots.size, ⟨slots.cells.push none⟩)

/-- **Writing a slot**, which has to be there and not to be written yet. -/
def fill (slots : Slots α) (place : Nat) (value : α) : Except Refusal (Slots α) :=
  match slots.cells[place]? with
  | none => .error .absent
  | some (some _) => .error .taken
  | some none => .ok ⟨slots.cells.setIfInBounds place (some value)⟩

/-- The values of slots from a place on, all of which have to be written. -/
def valuesFrom (missing : Nat → ε) : (place : Nat) → List (Option α) → Except ε (List α)
  | _, [] => .ok []
  | place, none :: _ => .error (missing place)
  | place, some value :: cells => (valuesFrom missing (place + 1) cells).map (value :: ·)

/-- **The values of all slots**; the first one that is missing is reported. -/
def values (missing : Nat → ε) (slots : Slots α) : Except ε (List α) :=
  valuesFrom missing 0 slots.cells.toList

end Slots

end SchemaEvolution

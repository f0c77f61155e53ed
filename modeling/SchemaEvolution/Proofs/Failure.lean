import SchemaEvolution.Error
import Mathlib

/-!
# Computations that may fail

A computation that is put together from failing ones succeeds when its parts do, and fails with
an error of one of its parts. An error either blames the schema or the compiler; the second kind
stands for a broken invariant.

## Main definitions

* `SchemaError.blamesCompiler`: the causes that no schema is responsible for
* `BlamesSchema x`: a failure of `x` is the fault of the schema

## Main results

* `bind_eq_ok`, `mapM_eq_ok_iff`: when a sequence of failing computations succeeds
* `bind_eq_error`, `exists_of_mapM_eq_error`: what it fails with
* `BlamesSchema.bind`, `BlamesSchema.mapM`: blame passes through a sequence
-/

namespace SchemaEvolution

universe u v w

/-! ## Success -/

section Success

variable {ε : Type u} {α β : Type v} {γ : Type w}

theorem bind_eq_ok {x : Except ε α} {f : α → Except ε β} {b : β} :
    (x >>= f) = .ok b ↔ ∃ a, x = .ok a ∧ f a = .ok b := by
  cases x with
  | error e => simp [bind, Except.bind]
  | ok a => simp [bind, Except.bind]

theorem bind_eq_error {x : Except ε α} {f : α → Except ε β} {e : ε} :
    (x >>= f) = .error e ↔ x = .error e ∨ ∃ a, x = .ok a ∧ f a = .error e := by
  cases x with
  | error e' => simp [bind, Except.bind]
  | ok a => simp [bind, Except.bind]

theorem ok_bind {a : α} {f : α → Except ε β} : (Except.ok a >>= f) = f a := rfl

theorem toOption_bind {x : Except ε α} {f : α → Except ε β} :
    (x >>= f).toOption = x.toOption.bind fun a => (f a).toOption := by
  cases x with
  | error e => rfl
  | ok a => rfl

theorem toOption_eq_some_iff {x : Except ε α} {a : α} : x.toOption = some a ↔ x = .ok a := by
  cases x with
  | error e => exact ⟨nofun, nofun⟩
  | ok b =>
    exact ⟨fun h => congrArg _ (Option.some.inj h), fun h => congrArg some (Except.ok.inj h)⟩

theorem map_eq_ok {x : Except ε α} {f : α → β} {b : β} :
    x.map f = .ok b ↔ ∃ a, x = .ok a ∧ f a = b := by
  cases x with
  | error e => simp [Except.map]
  | ok a => simp [Except.map]

theorem map_eq_error {x : Except ε α} {f : α → β} {e : ε} :
    x.map f = .error e ↔ x = .error e := by
  cases x with
  | error e' => simp [Except.map]
  | ok a => simp [Except.map]

/-- A function on what comes of a step is passed on behind the next step. -/
theorem map_bind_eq_map {β' γ' : Type v} {x : Except ε α} {f : α → β} {g : β → Except ε γ'}
    {h : α → Except ε β'} {k : β' → γ'} (hstep : ∀ a, g (f a) = (h a).map k) :
    (x.map f >>= g) = (x >>= h).map k := by
  cases x with
  | error e => rfl
  | ok a => exact hstep a

theorem mapM_eq_ok_iff {f : γ → Except ε β} {xs : List γ} {ys : List β} :
    xs.mapM f = .ok ys ↔ List.Forall₂ (fun x y => f x = .ok y) xs ys := by
  induction xs generalizing ys with
  | nil => cases ys <;> simp [pure, Except.pure]
  | cons x xs ih =>
    rw [List.mapM_cons, bind_eq_ok]
    constructor
    · rintro ⟨y, hy, h⟩
      obtain ⟨ys', hys, h⟩ := bind_eq_ok.mp h
      obtain rfl := Except.ok.inj h
      exact .cons hy (ih.mp hys)
    · rintro (_ | ⟨hy, hys⟩)
      exact ⟨_, hy, bind_eq_ok.mpr ⟨_, ih.mpr hys, rfl⟩⟩

/-- A sequence fails with the failure of one of its items. -/
theorem exists_of_mapM_eq_error {f : γ → Except ε β} {xs : List γ} {e : ε}
    (h : xs.mapM f = .error e) : ∃ x ∈ xs, f x = .error e := by
  induction xs with
  | nil => cases h
  | cons x xs ih =>
    rw [List.mapM_cons] at h
    rcases bind_eq_error.mp h with hx | ⟨y, -, h⟩
    · exact ⟨x, List.mem_cons_self, hx⟩
    rcases bind_eq_error.mp h with hxs | ⟨ys, -, h⟩
    · obtain ⟨z, hz, hfailed⟩ := ih hxs
      exact ⟨z, List.mem_cons_of_mem x hz, hfailed⟩
    · cases h

end Success

/-! ## Lists related element by element -/

section Related

variable {α : Type u} {β : Type v} {R : α → β → Prop} {xs : List α} {ys : List β}

theorem exists_left_of_forall₂ (h : List.Forall₂ R xs ys) {y : β} (hy : y ∈ ys) :
    ∃ x ∈ xs, R x y := by
  induction h with
  | nil => cases hy
  | cons hxy _ ih =>
    rcases List.mem_cons.mp hy with rfl | hy
    · exact ⟨_, List.mem_cons_self, hxy⟩
    · obtain ⟨x, hx, hr⟩ := ih hy
      exact ⟨x, List.mem_cons_of_mem _ hx, hr⟩

theorem exists_right_of_forall₂ (h : List.Forall₂ R xs ys) {x : α} (hx : x ∈ xs) :
    ∃ y ∈ ys, R x y :=
  exists_left_of_forall₂ (R := flip R) h.flip hx

theorem exists_getElem?_right_of_forall₂ (h : List.Forall₂ R xs ys) {i : Nat} {x : α}
    (hx : xs[i]? = some x) : ∃ y, ys[i]? = some y ∧ R x y := by
  induction h generalizing i with
  | nil => cases hx
  | cons hxy _ ih =>
    cases i with
    | zero =>
      obtain rfl := Option.some.inj hx
      exact ⟨_, rfl, hxy⟩
    | succ i => exact ih hx

theorem exists_getElem?_left_of_forall₂ (h : List.Forall₂ R xs ys) {i : Nat} {y : β}
    (hy : ys[i]? = some y) : ∃ x, xs[i]? = some x ∧ R x y :=
  exists_getElem?_right_of_forall₂ (R := flip R) h.flip hy

/-- Two lists that are related to a third one are related to each other. -/
theorem forall₂_of_common {γ : Type w} {S : α → γ → Prop} {zs : List γ}
    (h : List.Forall₂ R xs ys) (h' : List.Forall₂ S xs zs) :
    List.Forall₂ (fun y z => ∃ x ∈ xs, R x y ∧ S x z) ys zs := by
  induction h generalizing zs with
  | nil =>
    cases h'
    exact .nil
  | cons hxy _ ih =>
    cases h' with
    | cons hxz hrest =>
      refine .cons ⟨_, List.mem_cons_self, hxy, hxz⟩ ((ih hrest).imp ?_)
      rintro y z ⟨x, hx, hboth⟩
      exact ⟨x, List.mem_cons_of_mem _ hx, hboth⟩

/-- What is related to the pairs of two related lists is related to the second list. -/
theorem forall₂_of_zip {γ : Type w} {S : α × β → γ → Prop} {zs : List γ}
    (h : List.Forall₂ R xs ys) (h' : List.Forall₂ S (xs.zip ys) zs) :
    List.Forall₂ (fun y z => ∃ x ∈ xs, R x y ∧ S (x, y) z) ys zs := by
  induction h generalizing zs with
  | nil =>
    cases h'
    exact .nil
  | cons hxy _ ih =>
    cases h' with
    | cons hpair hrest =>
      refine .cons ⟨_, List.mem_cons_self, hxy, hpair⟩ ((ih hrest).imp ?_)
      rintro y z ⟨x, hx, hboth⟩
      exact ⟨x, List.mem_cons_of_mem _ hx, hboth⟩

/-- Lists related by a relation that two functions respect have the same image. -/
theorem map_eq_map_of_forall₂ {γ : Type w} {f : α → γ} {g : β → γ} (h : List.Forall₂ R xs ys)
    (hfg : ∀ x y, R x y → f x = g y) : xs.map f = ys.map g := by
  rw [← List.forall₂_eq_eq_eq, List.forall₂_map_left_iff, List.forall₂_map_right_iff]
  exact h.imp hfg

theorem exists_forall₂ (h : ∀ x ∈ xs, ∃ y, R x y) : ∃ ys, List.Forall₂ R xs ys := by
  induction xs with
  | nil => exact ⟨[], .nil⟩
  | cons x xs ih =>
    obtain ⟨y, hy⟩ := h x List.mem_cons_self
    obtain ⟨ys, hys⟩ := ih fun z hz => h z (List.mem_cons_of_mem x hz)
    exact ⟨y :: ys, .cons hy hys⟩

/-- A list of computations that each succeed succeeds. -/
theorem exists_mapM_eq_ok {ε : Type w} {β : Type v} {f : α → Except ε β}
    (h : ∀ x ∈ xs, ∃ y, f x = .ok y) : ∃ ys, xs.mapM f = .ok ys := by
  obtain ⟨ys, hys⟩ := exists_forall₂ h
  exact ⟨ys, mapM_eq_ok_iff.mpr hys⟩

theorem exists_mapM_iff {ε : Type w} {β : Type v} {f : α → Except ε β} :
    (∃ ys, xs.mapM f = .ok ys) ↔ ∀ x ∈ xs, ∃ y, f x = .ok y := by
  refine ⟨?_, exists_mapM_eq_ok⟩
  rintro ⟨ys, hys⟩ x hx
  obtain ⟨y, -, hy⟩ := exists_right_of_forall₂ (mapM_eq_ok_iff.mp hys) hx
  exact ⟨y, hy⟩

/-- A fold whose steps each succeed succeeds. -/
theorem exists_foldlM_eq_ok {ε : Type w} {β : Type v} {f : β → α → Except ε β}
    (h : ∀ x ∈ xs, ∀ b, ∃ b', f b x = .ok b') (b : β) : ∃ b', xs.foldlM f b = .ok b' := by
  induction xs generalizing b with
  | nil => exact ⟨b, rfl⟩
  | cons x rest ih =>
    obtain ⟨hx, hrest⟩ := List.forall_mem_cons.mp h
    obtain ⟨next, hnext⟩ := hx b
    obtain ⟨b', hb'⟩ := ih hrest next
    refine ⟨b', ?_⟩
    rw [List.foldlM_cons, hnext]
    exact hb'

end Related

/-! ## Blame -/

/-- The causes that no schema is responsible for: each of them is a broken invariant. -/
def SchemaError.blamesCompiler : SchemaError → Bool
  | .internal _ | .upgradeConsistency .. | .typeNotFound .. | .discriminantRenumbered .. => true
  | _ => false

/-- **A failure is the fault of the schema**, never a broken invariant. -/
def BlamesSchema {α : Type u} (x : Except SchemaError α) : Prop :=
  ∀ e, x = .error e → e.blamesCompiler = false

namespace BlamesSchema

variable {α β : Type}

theorem ok (a : α) : BlamesSchema (.ok a) := nofun

theorem error {e : SchemaError} (h : e.blamesCompiler = false) :
    BlamesSchema (.error e : Except SchemaError α) := by
  intro e' he
  rw [← Except.error.inj he, h]

theorem of_eq_ok {x : Except SchemaError α} {a : α} (h : x = .ok a) : BlamesSchema x :=
  h ▸ ok a

theorem bind {x : Except SchemaError α} {f : α → Except SchemaError β} (hx : BlamesSchema x)
    (hf : ∀ a, x = .ok a → BlamesSchema (f a)) : BlamesSchema (x >>= f) := by
  cases x with
  | error e => exact error (hx e rfl)
  | ok a => exact hf a rfl

theorem mapM {f : α → Except SchemaError β} {xs : List α}
    (h : ∀ x ∈ xs, BlamesSchema (f x)) : BlamesSchema (xs.mapM f) := by
  intro e he
  obtain ⟨x, hx, hfailed⟩ := exists_of_mapM_eq_error he
  exact h x hx e hfailed

end BlamesSchema

end SchemaEvolution

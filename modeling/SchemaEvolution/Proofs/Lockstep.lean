import SchemaEvolution.Proofs.Derive

/-!
# Changes do not look at the values

A change looks at the names of fields and at their order, and at nothing else. Whether it succeeds,
which error it fails with and which names it leaves is therefore settled by the names that it is
made on. What becomes of the values commutes with every function on them that agrees with what
insertions and conversions do. Both carry over from one change to any list of changes, and to the
values that an upgrade carries: their types are the layout, at every step.

## Main definitions

* `FieldChange.applyAll`: changes one after the other, up to the first that fails

## Main results

* `FieldChange.applyAll_related`: a list of changes keeps every relation that insertions and
  conversions keep
* `FieldChange.apply_map`, `FieldChange.applyAll_map`: changes commute with functions on the values
* `Derivation.map_replay`: the types of the carried values are the layout
* `FieldChange.apply_natural`: all of this for one change, for lists of changes and for upgrades
-/

namespace SchemaEvolution

universe u v w x

variable {α : Type u} {β : Type v} {ε : Type w}

/-! ## Agreement as an equation -/

/-- Maps with the same names are those that are related in some way. -/
theorem OrderedMap.related_true_iff {m : OrderedMap α} {n : OrderedMap β} :
    Related (fun _ _ => True) m n ↔ m.keys = n.keys := by
  have hentries : ∀ (xs : List (String × α)) (ys : List (String × β)),
      List.Forall₂ (fun a b => a.1 = b.1 ∧ True) xs ys ↔ xs.map Prod.fst = ys.map Prod.fst := by
    intro xs ys
    rw [← List.forall₂_eq_eq_eq, List.forall₂_map_left_iff, List.forall₂_map_right_iff]
    simp only [and_true]
  exact hentries m.entries n.entries

/-- A map is related to another one by a function when the function yields that one. -/
theorem OrderedMap.related_map_iff {f : α → β} {m : OrderedMap α} {n : OrderedMap β} :
    Related (fun a b => f a = b) m n ↔ m.map f = n := by
  have hpairs : (fun (a : String × α) (b : String × β) => a.1 = b.1 ∧ f a.2 = b.2) =
      fun a b => (a.1, f a.2) = b := by
    funext a b
    rw [Prod.ext_iff]
  rw [Related, hpairs, OrderedMap.ext_iff, ← List.forall₂_map_left_iff,
    List.forall₂_eq_eq_eq]
  rfl

/-- Two results agree along two functions when these take them to the same. -/
theorem agreeUpTo_iff_map_eq {γ : Type x} {f : α → γ} {g : β → γ} {x : Except ε α}
    {y : Except ε β} : AgreeUpTo (fun a b => f a = g b) x y ↔ x.map f = y.map g := by
  cases x with
  | error e => cases y <;> simp [AgreeUpTo, Except.map]
  | ok a => cases y <;> simp [AgreeUpTo, Except.map]

/-- Two results agree along a function when it takes the one to the other. -/
theorem agreeUpTo_iff_map_eq_self {f : α → β} {x : Except ε α} {y : Except ε β} :
    AgreeUpTo (fun a b => f a = b) x y ↔ x.map f = y := by
  have h : AgreeUpTo (fun a b => f a = id b) x y ↔ x.map f = y.map id := agreeUpTo_iff_map_eq
  rw [Except.map_id] at h
  exact h

theorem AgreeUpTo.imp {R S : α → β → Prop} {x : Except ε α} {y : Except ε β}
    (h : AgreeUpTo R x y) (himp : ∀ {a b}, R a b → S a b) : AgreeUpTo S x y := by
  cases x with
  | error e =>
    cases y with
    | error e' => exact h
    | ok b => exact h.elim
  | ok a =>
    cases y with
    | error e' => exact h.elim
    | ok b => exact himp h

/-- Agreement goes through what is done next, if that agrees on related results. -/
theorem AgreeUpTo.bind {α' : Type u} {β' : Type v} {R : α → β → Prop} {S : α' → β' → Prop}
    {x : Except ε α} {y : Except ε β} {f : α → Except ε α'} {g : β → Except ε β'}
    (h : AgreeUpTo R x y) (hnext : ∀ {a b}, R a b → AgreeUpTo S (f a) (g b)) :
    AgreeUpTo S (x >>= f) (y >>= g) := by
  cases x with
  | error e =>
    cases y with
    | error e' => exact h
    | ok b => exact h.elim
  | ok a =>
    cases y with
    | error e' => exact h.elim
    | ok b => exact hnext h

/-! ## Lists of changes -/

namespace FieldChange

open OrderedMap

variable {τ κ : Type} {α : Type u} {β : Type v}

/-- **Changes one after the other**, each at its site, up to the first that fails. -/
def applyAll (start : τ → κ → List String → α) (rework : τ → κ → List String → α → α) :
    List (FieldSite × FieldChange τ κ) → OrderedMap α → Except SchemaError (OrderedMap α)
  | [], fields => .ok fields
  | (site, change) :: rest, fields => do
    let fields ← change.apply start rework site fields
    applyAll start rework rest fields

variable {start : τ → κ → List String → α} {rework : τ → κ → List String → α → α}
  {start' : τ → κ → List String → β} {rework' : τ → κ → List String → β → β}

section Related

variable {R : α → β → Prop}
  (hstart : ∀ type code context, R (start type code context) (start' type code context))
  (hrework : ∀ type code context a b, R a b →
    R (rework type code context a) (rework' type code context b))

include hstart hrework

/-- One change keeps every relation that insertions and conversions keep. -/
theorem apply_related_self (change : FieldChange τ κ) (site : FieldSite) {m : OrderedMap α}
    {n : OrderedMap β} (h : Related R m n) :
    AgreeUpTo (Related R) (change.apply start rework site m) (change.apply start' rework' site n) :=
  apply_related_resolved
    (fun hsame hsame' => by
      obtain rfl := Except.ok.inj hsame
      obtain rfl := Except.ok.inj hsame'
      exact hstart _ _ _)
    (fun hsame hsame' _ _ hab => by
      obtain rfl := Except.ok.inj hsame
      obtain rfl := Except.ok.inj hsame'
      exact hrework _ _ _ _ _ hab)
    (traverse_self change) (traverse_self change) h site

/-- **A list of changes keeps every relation** that insertions and conversions keep. -/
theorem applyAll_related (changes : List (FieldSite × FieldChange τ κ)) {m : OrderedMap α}
    {n : OrderedMap β} (h : Related R m n) :
    AgreeUpTo (Related R) (applyAll start rework changes m)
      (applyAll start' rework' changes n) := by
  induction changes generalizing m n with
  | nil => exact h
  | cons first rest ih =>
    exact (apply_related_self hstart hrework first.2 first.1 h).bind fun hmiddle => ih hmiddle

end Related

/-- **The names settle what a change does to the names**, and which error it fails with. -/
theorem apply_keys (change : FieldChange τ κ) (site : FieldSite) {m : OrderedMap α}
    {n : OrderedMap β} (h : m.keys = n.keys) :
    (change.apply start rework site m).map OrderedMap.keys =
      (change.apply start' rework' site n).map OrderedMap.keys :=
  agreeUpTo_iff_map_eq.mp ((apply_related_self (fun _ _ _ => trivial) (fun _ _ _ _ _ _ => trivial)
    change site (related_true_iff.mpr h)).imp related_true_iff.mp)

/-- The names settle what a list of changes does to the names, and which error it fails with. -/
theorem applyAll_keys (changes : List (FieldSite × FieldChange τ κ)) {m : OrderedMap α}
    {n : OrderedMap β} (h : m.keys = n.keys) :
    (applyAll start rework changes m).map OrderedMap.keys =
      (applyAll start' rework' changes n).map OrderedMap.keys :=
  agreeUpTo_iff_map_eq.mp ((applyAll_related (fun _ _ _ => trivial) (fun _ _ _ _ _ _ => trivial)
    changes (related_true_iff.mpr h)).imp related_true_iff.mp)

section Map

variable {f : α → β}
  (hstart : ∀ type code context, f (start type code context) = start' type code context)
  (hrework : ∀ type code context a,
    f (rework type code context a) = rework' type code context (f a))

include hstart hrework

/-- **A change commutes with a function on the values** that agrees with what insertions and
conversions do. -/
theorem apply_map (change : FieldChange τ κ) (site : FieldSite) (m : OrderedMap α) :
    change.apply start' rework' site (m.map f) =
      (change.apply start rework site m).map (OrderedMap.map f) := by
  have hagree : AgreeUpTo (Related (fun a b => f a = b)) (change.apply start rework site m)
      (change.apply start' rework' site (m.map f)) :=
    apply_related_self (R := fun a b => f a = b) hstart
      (fun type code context a b hab => by rw [hrework, hab]) change site (related_map_iff.mpr rfl)
  exact (agreeUpTo_iff_map_eq_self.mp (hagree.imp related_map_iff.mp)).symm

/-- **A list of changes commutes with a function on the values.** -/
theorem applyAll_map (changes : List (FieldSite × FieldChange τ κ)) (m : OrderedMap α) :
    applyAll start' rework' changes (m.map f) =
      (applyAll start rework changes m).map (OrderedMap.map f) := by
  have hagree : AgreeUpTo (Related (fun a b => f a = b)) (applyAll start rework changes m)
      (applyAll start' rework' changes (m.map f)) :=
    applyAll_related (R := fun a b => f a = b) hstart
      (fun type code context a b hab => by rw [hrework, hab]) changes (related_map_iff.mpr rfl)
  exact (agreeUpTo_iff_map_eq_self.mp (hagree.imp related_map_iff.mp)).symm

end Map

end FieldChange

/-! ## Layouts and carried values -/

namespace Derivation

variable {source : Derivation} {old : Node} {version : Nat}

/-- A resolved change does to the types of carried values what the change does to a layout. -/
theorem map_apply_resolved {change : FieldChange TypeRef CodeRef} {resolved : ResolvedChange}
    (h : source.resolveChange old version change = .ok resolved) (site : FieldSite)
    (carried : OrderedMap Carried) :
    (resolved.apply start rework site carried).map (OrderedMap.map Carried.type) =
      Layout.apply site change (carried.map Carried.type) := by
  rw [Layout.apply_eq]
  have hagree : AgreeUpTo (OrderedMap.Related (fun value type => Carried.type value = type))
      (resolved.apply start rework site carried)
      (change.apply (fun type _ _ => type) (fun type _ _ _ => type) site
        (carried.map Carried.type)) := by
    refine FieldChange.apply_related_resolved ?_ ?_ h (FieldChange.traverse_self change)
      (OrderedMap.related_map_iff.mpr rfl) site
    · intro type code context out out' hresolve hsame
      obtain rfl := Except.ok.inj hsame
      exact (resolve_eq_ok_iff.mp hresolve).1
    · intro type code context out out' hresolve hsame _ _ _
      obtain rfl := Except.ok.inj hsame
      exact (resolve_eq_ok_iff.mp hresolve).1
  exact agreeUpTo_iff_map_eq_self.mp (hagree.imp OrderedMap.related_map_iff.mp)

/-- **The types of the carried values are the layout**, at every step: both replays succeed, or both
fail with one error. -/
theorem map_replay {steps : List Step}
    (hresolve : ∀ step ∈ steps, ∃ change, source.resolveChange old version step.change = .ok change)
    (carried : OrderedMap Carried) :
    (source.replay old version steps carried).map (fun out => out.2.map Carried.type) =
      Layout.run (source.chain.nameOf version) steps (carried.map Carried.type) := by
  -- one step at a time, on what the step before has left on the two sides
  induction steps generalizing carried with
  | nil => rfl
  | cons step rest ih =>
    obtain ⟨⟨change, hchange⟩, hrest⟩ := List.forall_mem_cons.mp hresolve
    rw [replay, hchange, ok_bind, Layout.run, ← map_apply_resolved hchange]
    cases change.apply start rework ⟨step.type, source.chain.nameOf version⟩ carried with
    | error e => rfl
    | ok middle =>
      have hlater := ih hrest middle
      rw [Except.map, ok_bind, ok_bind, ← hlater]
      cases source.replay old version rest middle with
      | error e => rfl
      | ok out => rfl

end Derivation

/-! ## Changes do not look at the values -/

/-- **Changes do not look at the values.** On fields with the same names in the same order, whatever
their values are, a change leaves the same names or fails with the same error. A function on the
values that agrees with what insertions and conversions do may be applied before the change or
behind it. The same holds of any list of changes, wherever it fails. So the values that an upgrade
carries go through the steps of a version as the layout does: their types are what the steps make of
the types before, or both fail with one error. -/
theorem FieldChange.apply_natural {τ κ : Type} {start : τ → κ → List String → α}
    {rework : τ → κ → List String → α → α} {start' : τ → κ → List String → β}
    {rework' : τ → κ → List String → β → β} :
    (∀ change site (m : OrderedMap α) (n : OrderedMap β), m.keys = n.keys →
      (FieldChange.apply start rework site change m).map OrderedMap.keys =
        (change.apply start' rework' site n).map OrderedMap.keys) ∧
    (∀ changes (m : OrderedMap α) (n : OrderedMap β), m.keys = n.keys →
      (applyAll start rework changes m).map OrderedMap.keys =
        (applyAll start' rework' changes n).map OrderedMap.keys) ∧
    (∀ f : α → β,
      (∀ type code context, f (start type code context) = start' type code context) →
      (∀ type code context a,
        f (rework type code context a) = rework' type code context (f a)) →
      (∀ change site m, change.apply start' rework' site (m.map f) =
        (FieldChange.apply start rework site change m).map (OrderedMap.map f)) ∧
      ∀ changes m, applyAll start' rework' changes (m.map f) =
        (applyAll start rework changes m).map (OrderedMap.map f)) ∧
    ∀ (source : Derivation) old version steps,
      (∀ step ∈ steps, ∃ change, source.resolveChange old version step.change = .ok change) →
      ∀ carried, (source.replay old version steps carried).map (fun out => out.2.map Carried.type) =
        Layout.run (source.chain.nameOf version) steps (carried.map Carried.type) :=
  ⟨fun change site _ _ h => apply_keys change site h,
    fun changes _ _ h => applyAll_keys changes h,
    fun _ hstart hrework => ⟨apply_map hstart hrework, applyAll_map hstart hrework⟩,
    fun _ _ _ _ hresolve carried => Derivation.map_replay hresolve carried⟩

/-- What upgrades are derived from when the version brings in a field `n`, of type `int`. -/
def Derivation.collision : Derivation where
  chain := ⟨[⟨0, "a", none, false, [], none⟩, ⟨1, "b", some "a", true, [], none⟩]⟩
  history := ⟨[]⟩
  graph := ⟨#[], ⟨[∅, .ofList [("int", ⟨[], some 0⟩)]]⟩, []⟩
  references := [.construct "c.T"]

/-- The field `n` is brought in, and then `x` is moved onto it. -/
def Step.collision : List Step :=
  [⟨"T", .insert "n" ⟨"int", .plain⟩ (.construct "c.T") ["x"] none⟩, ⟨"T", .move "x" "n" none⟩]

/-- A record whose only field is `x`. -/
def Node.collision : Node := ⟨0, "T", some 0, .base [⟨"x", ⟨"int", .plain⟩, 0⟩]⟩

/-- Numbers without and with sign fail alike when two fields collide, and are converted alike; so
are carried values and their types. -/
theorem FieldChange.apply_natural_collision :
    (applyAll (fun _ code _ => code) (fun _ code _ value => value + code)
        [(⟨"T", "b"⟩, .insert "n" "int" 4 [] (some 0)), (⟨"T", "b"⟩, .move "x" "n" none)]
        (.ofList [("x", (3 : Nat))])).map OrderedMap.keys =
      (applyAll (fun _ (code : Nat) _ => (code : Int)) (fun _ code _ value => value + code)
        [(⟨"T", "b"⟩, .insert "n" "int" 4 [] (some 0)), (⟨"T", "b"⟩, .move "x" "n" none)]
        (.ofList [("x", -3)])).map OrderedMap.keys ∧
    apply (fun _ (code : Nat) _ => (code : Int)) (fun _ code _ value => value + code) ⟨"T", "b"⟩
        (.convert "x" "int" 4 []) (OrderedMap.map (↑) (.ofList [("x", (3 : Nat))])) =
      (apply (fun _ code _ => code) (fun _ code _ value => value + code) ⟨"T", "b"⟩
        (.convert "x" "int" 4 []) (.ofList [("x", 3)])).map (OrderedMap.map (↑)) ∧
    (Derivation.collision.replay .collision 1 Step.collision (Derivation.initial .collision)).map
        (fun out => out.2.map Carried.type) =
      Layout.run "b" Step.collision (.ofList [("x", ⟨"int", .plain⟩)]) := by
  obtain ⟨-, hkeys, hmap, hreplay⟩ := @apply_natural Nat Int String Nat (fun _ code _ => code)
    (fun _ code _ value => value + code) (fun _ code _ => code) (fun _ code _ value => value + code)
  refine ⟨hkeys _ _ _ rfl, (hmap (↑) (fun _ _ _ => rfl)
    fun _ code _ value => Int.natCast_add value code).1 _ _ _,
    hreplay _ _ _ _ (fun step hstep => ?_) _⟩
  fin_cases hstep
  · exact ⟨_, rfl⟩
  · exact ⟨_, rfl⟩

end SchemaEvolution

import SchemaEvolution.Definition
import SchemaEvolution.Proofs.Hierarchy

/-!
# What an interface inherits

An interface has the fields of all interfaces that it reaches, itself included. It can be put
together from them exactly if no two of them declare a field with different types, and then it has
the fields that any of them declares and no others.

## Main definitions

* `Hierarchy.Closed`: whatever is extended is declared
* `Definition.Unambiguous`: no field is declared with two types

## Main results

* `Hierarchy.exists_ancestry`: without a circle every interface has its ancestry
* `Hierarchy.mem_ancestry_iff`: the ancestry of an interface is what it reaches
* `Definition.inheritAll_spec`: fields are inherited exactly if they are unambiguous, and then
  what is inherited is what is declared anywhere
-/

namespace SchemaEvolution

open Relation (ReflTransGen)

/-! ## Ancestry -/

namespace Hierarchy

variable {hierarchy : Hierarchy} {name other : String} {path names done out : List String}

/-- Whatever is extended is declared. -/
def Closed (hierarchy : Hierarchy) : Prop :=
  ∀ name parent, hierarchy.Extends name parent → parent ∈ hierarchy

/-- **The walk lists nothing but what it comes to** from the names that it goes through. -/
theorem reaches_of_walk (h : hierarchy.walk path names done = .ok out) (hother : other ∈ out) :
    other ∈ done ∨ ∃ name ∈ names, ReflTransGen hierarchy.Extends name other := by
  fun_induction walk hierarchy path names done generalizing out with
  | case1 path done =>
    obtain rfl := Except.ok.inj h
    exact .inl hother
  | case2 path name names done _ ih =>
    rcases ih h hother with hdone | ⟨start, hstart, hreach⟩
    · exact .inl hdone
    · exact .inr ⟨start, List.mem_cons_of_mem _ hstart, hreach⟩
  | case3 => cases h
  | case4 => cases h
  | case5 path name names done _ _ _ later hwalk ihparents ihnames =>
    rcases ihnames h hother with hlater | ⟨start, hstart, hreach⟩
    · rcases List.mem_append.mp hlater with hlater | hself
      · rcases ihparents hwalk hlater with hdone | ⟨parent, hparent, hreach⟩
        · exact .inl hdone
        · exact .inr ⟨name, List.mem_cons_self, .head hparent hreach⟩
      · obtain rfl := List.mem_singleton.mp hself
        exact .inr ⟨other, List.mem_cons_self, .refl⟩
    · exact .inr ⟨start, List.mem_cons_of_mem _ hstart, hreach⟩
  | case6 path name names done _ _ _ ih =>
    rcases ih h hother with hdone | ⟨start, hstart, hreach⟩
    · exact .inl hdone
    · exact .inr ⟨start, List.mem_cons_of_mem _ hstart, hreach⟩

/-- What an interface that is settled extends is settled before it. -/
theorem Settled.mem_of_extends (h : hierarchy.Settled done) (hclosed : hierarchy.Closed)
    (hname : name ∈ done) (hextends : hierarchy.Extends name other) : other ∈ done := by
  induction h with
  | nil => cases hname
  | @snoc done last _ hlast ih =>
    rcases List.mem_append.mp hname with hbefore | hself
    · exact List.mem_append_left _ (ih hbefore)
    · obtain rfl := List.mem_singleton.mp hself
      exact List.mem_append_left _ (hlast other (hclosed _ other hextends) hextends)

theorem Settled.mem_of_reaches (h : hierarchy.Settled done) (hclosed : hierarchy.Closed)
    (hname : name ∈ done) (hreach : ReflTransGen hierarchy.Extends name other) :
    other ∈ done := by
  induction hreach with
  | refl => exact hname
  | tail _ hextends ih => exact h.mem_of_extends hclosed ih hextends

/-- **Without a circle every interface has its ancestry.** -/
theorem exists_ancestry (h : hierarchy.Acyclic) (name : String) :
    ∃ out, hierarchy.ancestry name = .ok out := by
  cases hwalk : hierarchy.ancestry name with
  | ok out => exact ⟨out, rfl⟩
  | error circle =>
    obtain ⟨other, hcircle⟩ :=
      exists_extends_of_walk hwalk fun _ hmem => absurd hmem List.not_mem_nil
    exact absurd hcircle (h other)

/-- **The ancestry of an interface is what it reaches**, itself included. -/
theorem mem_ancestry_iff (h : hierarchy.ancestry name = .ok out) (hclosed : hierarchy.Closed)
    (hname : name ∈ hierarchy) : other ∈ out ↔ ReflTransGen hierarchy.Extends name other := by
  constructor
  · intro hother
    rcases reaches_of_walk h hother with hnone | ⟨start, hstart, hreach⟩
    · cases hnone
    · obtain rfl := List.mem_singleton.mp hstart
      exact hreach
  · intro hreach
    obtain ⟨hsettled, -, hall⟩ := settled_of_walk h .nil
    exact hsettled.mem_of_reaches hclosed (hall name List.mem_cons_self hname) hreach

end Hierarchy

/-! ## Inherited fields -/

namespace Definition

variable {own : OrderedMap Layout} {names : List String} {all out : Layout} {field : String}
  {type : TypeRef}

/-- **No field is declared with two types.** -/
def Unambiguous (declares : String → TypeRef → Prop) : Prop :=
  ∀ field type type', declares field type → declares field type' → type = type'

/-- A field is among those that are inherited so far, or among the next ones. -/
def Joins (all : Layout) (fields : List (String × TypeRef)) (field : String) (type : TypeRef) :
    Prop :=
  all.get? field = some type ∨ (field, type) ∈ fields

/-- A field is among those that are inherited so far, or one of the interfaces declares it. -/
def Inherits (own : OrderedMap Layout) (names : List String) (all : Layout) (field : String)
    (type : TypeRef) : Prop :=
  all.get? field = some type ∨
    ∃ name ∈ names, ∃ layout, own.get? name = some layout ∧ layout.get? field = some type

theorem joins_nil : Joins all [] = fun field type => all.get? field = some type := by
  funext field type
  simp [Joins]

/-- A field that is there already with the same type changes nothing. -/
theorem joins_cons_of_get? {rest : List (String × TypeRef)} (h : all.get? field = some type) :
    Joins all ((field, type) :: rest) = Joins all rest := by
  funext other type'
  simp only [Joins, List.mem_cons, Prod.mk.injEq, eq_iff_iff]
  constructor
  · rintro (hall | ⟨rfl, rfl⟩ | hrest)
    · exact .inl hall
    · exact .inl h
    · exact .inr hrest
  · rintro (hall | hrest)
    · exact .inl hall
    · exact .inr (.inr hrest)

/-- A field that is new goes from the next ones to those that are inherited. -/
theorem joins_insert {rest : List (String × TypeRef)} (h : all.get? field = none) :
    Joins (all.insert field type) rest = Joins all ((field, type) :: rest) := by
  funext other type'
  simp only [Joins, OrderedMap.get?_insert, List.mem_cons, Prod.mk.injEq, eq_iff_iff]
  by_cases hother : other = field
  · subst hother
    simp [h, eq_comm]
  · simp [hother]

/-- **The fields of one interface** are entered exactly if they are unambiguous, and then what is
there is what was there or is entered. -/
theorem inheritFields_spec (interface : String) (fields : List (String × TypeRef)) (all : Layout) :
    ((∃ out, inheritFields interface fields all = .ok out) ↔ Unambiguous (Joins all fields)) ∧
      ∀ out, inheritFields interface fields all = .ok out →
        ∀ field type, out.get? field = some type ↔ Joins all fields field type := by
  induction fields generalizing all with
  | nil =>
    rw [joins_nil]
    refine ⟨iff_of_true ⟨all, rfl⟩ fun field type type' h h' => ?_, fun out hout field type => ?_⟩
    · exact Option.some.inj (h.symm.trans h')
    · rw [← Except.ok.inj hout]
  | cons entry rest ih =>
    obtain ⟨field, type⟩ := entry
    rw [inheritFields]
    cases hget : all.get? field with
    | none =>
      rw [← joins_insert hget]
      exact ih _
    | some inherited =>
      by_cases hsame : inherited = type
      · subst hsame
        simp only [if_pos]
        rw [joins_cons_of_get? hget]
        exact ih all
      · simp only [if_neg hsame]
        refine ⟨iff_of_false nofun fun hone => hsame ?_, nofun⟩
        exact hone field inherited type (.inl hget) (.inr List.mem_cons_self)

theorem joins_getD (name : String) : Joins all ((own.get? name).getD ∅).entries field type ↔
    Inherits own [name] all field type := by
  cases hget : own.get? name with
  | none =>
    have hnone : (field, type) ∉ (∅ : Layout).entries := List.not_mem_nil
    simp [Joins, Inherits, hget, hnone]
  | some layout => simp [Joins, Inherits, hget, ← OrderedMap.get?_eq_some_iff]

/-- What is inherited from a list of interfaces is inherited from the first one and the rest. -/
theorem inherits_cons {name : String} {middle : Layout}
    (h : ∀ field type, middle.get? field = some type ↔ Inherits own [name] all field type) :
    Inherits own names middle = Inherits own (name :: names) all := by
  funext field type
  simp only [Inherits, h, List.mem_cons, List.not_mem_nil, or_false, exists_eq_left,
    exists_eq_or_imp, or_assoc]

/-- Fields that are ambiguous are so with further interfaces too. -/
theorem Unambiguous.first {name : String} (h : Unambiguous (Inherits own (name :: names) all)) :
    Unambiguous (Inherits own [name] all) := by
  have hfirst : ∀ {field type}, Inherits own [name] all field type →
      Inherits own (name :: names) all field type := by
    rintro field type (hall | ⟨other, hother, hlayout⟩)
    · exact .inl hall
    · obtain rfl := List.mem_singleton.mp hother
      exact .inr ⟨other, List.mem_cons_self, hlayout⟩
  exact fun field type type' hone hother => h field type type' (hfirst hone) (hfirst hother)

/-- **Fields are inherited exactly if they are unambiguous**, and then what is there is what any of
the interfaces declares. -/
theorem inheritAll_spec (own : OrderedMap Layout) (names : List String) (all : Layout) :
    ((∃ out, inheritAll own names all = .ok out) ↔ Unambiguous (Inherits own names all)) ∧
      ∀ out, inheritAll own names all = .ok out →
        ∀ field type, out.get? field = some type ↔ Inherits own names all field type := by
  induction names generalizing all with
  | nil =>
    refine ⟨iff_of_true ⟨all, rfl⟩ fun field type type' h h' => ?_, fun out hout field type => ?_⟩
    · simp only [Inherits, List.not_mem_nil, false_and, exists_false, or_false] at h h'
      exact Option.some.inj (h.symm.trans h')
    · rw [← Except.ok.inj hout]
      simp [Inherits]
  | cons name rest ih =>
    obtain ⟨hfirst, hmiddle⟩ := inheritFields_spec name ((own.get? name).getD ∅).entries all
    have hsame : Joins all ((own.get? name).getD ∅).entries = Inherits own [name] all := by
      funext field type
      exact propext (joins_getD name)
    rw [hsame] at hfirst hmiddle
    rw [inheritAll]
    simp only [bind_eq_ok]
    refine ⟨⟨?_, fun hone => ?_⟩, ?_⟩
    · rintro ⟨out, middle, hentered, hrest⟩
      rw [← inherits_cons (hmiddle middle hentered)]
      exact (ih middle).1.mp ⟨out, hrest⟩
    · obtain ⟨middle, hentered⟩ := hfirst.mpr hone.first
      rw [← inherits_cons (hmiddle middle hentered)] at hone
      obtain ⟨out, hrest⟩ := (ih middle).1.mpr hone
      exact ⟨out, middle, hentered, hrest⟩
    · rintro out ⟨middle, hentered, hrest⟩ field type
      rw [(ih middle).2 out hrest, inherits_cons (hmiddle middle hentered)]

end Definition

end SchemaEvolution

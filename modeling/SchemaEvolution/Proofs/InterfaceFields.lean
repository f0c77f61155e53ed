import SchemaEvolution.Proofs.FirstUses
import SchemaEvolution.Proofs.WellFormed

/-!
# The fields of an interface

The fields of an interface are collected from all that it extends, in the order in which a walk
first comes to them, parents first. The ancestry lists each interface once; the walk itself comes to
an interface again wherever it is extended again, and finds nothing new there. So nothing that is
declared anywhere above is lost, and the order is that of the walk.

## Main definitions

* `Hierarchy.Visits`: the walk through interfaces and all that they extend
* `Definition.extensions`, `Definition.fieldNames`: who extends whom, and who declares what
* `Definition.Declares`: an interface or one that it extends declares a field

## Main results

* `Hierarchy.foldl_of_walk`: the ancestry of an interface is what is visited, without repetitions
* `Definition.keys_inheritAll`: the inherited fields are those of the interfaces, in order
* `Definition.get?_allFields_iff`: an interface has the fields that are declared by it or above it
* `Definition.exists_visits_allFields`: they are in the order in which the walk comes to them
-/

namespace SchemaEvolution

open Relation (ReflTransGen)

/-! ## The walk -/

namespace Hierarchy

variable {hierarchy : Hierarchy} {name other : String} {path names done out visited : List String}

/-- **The walk through interfaces and all that they extend**, parents first and in the order of the
lists, with repetitions where an interface is reached more than once. -/
inductive Visits (hierarchy : Hierarchy) : List String → List String → Prop
  | nil : Visits hierarchy [] []
  | cons {name : String} {names above rest : List String}
      (hparents : Visits hierarchy (hierarchy.parents name) above)
      (hrest : Visits hierarchy names rest) :
      Visits hierarchy (name :: names) (above ++ name :: rest)

/-- What is visited is reached from the interfaces that the walk starts with. -/
theorem Visits.reaches (h : hierarchy.Visits names visited) (hother : other ∈ visited) :
    ∃ name ∈ names, ReflTransGen hierarchy.Extends name other := by
  induction h with
  | nil => cases hother
  | cons _ _ ihparents ihrest =>
    rcases List.mem_append.mp hother with habove | hself
    · obtain ⟨parent, hparent, hreach⟩ := ihparents habove
      exact ⟨_, List.mem_cons_self, .head hparent hreach⟩
    · rcases List.mem_cons.mp hself with rfl | hlater
      · exact ⟨other, List.mem_cons_self, .refl⟩
      · obtain ⟨start, hstart, hreach⟩ := ihrest hlater
        exact ⟨start, List.mem_cons_of_mem _ hstart, hreach⟩

/-- A walk through several interfaces goes through one after the other. -/
theorem exists_visits
    (h : ∀ name ∈ names, ∃ above, hierarchy.Visits (hierarchy.parents name) above) :
    ∃ visited, hierarchy.Visits names visited := by
  induction names with
  | nil => exact ⟨[], .nil⟩
  | cons name rest ih =>
    obtain ⟨⟨above, habove⟩, hrest⟩ := List.forall_mem_cons.mp h
    obtain ⟨visited, hvisited⟩ := ih hrest
    exact ⟨_, .cons habove hvisited⟩

/-- **The walk comes to an end** where no chain of extensions goes on forever. -/
theorem exists_visits_of_acc (h : Acc (flip hierarchy.Extends) name) :
    ∃ above, hierarchy.Visits (hierarchy.parents name) above := by
  induction h with
  | intro name _ ih => exact exists_visits ih

/-- **The walk that passes by what is done lists what is visited**, without the repetitions. -/
theorem foldl_of_walk (h : hierarchy.walk path names done = .ok out) (hacyclic : hierarchy.Acyclic)
    (hclosed : hierarchy.Closed) (hnames : ∀ name ∈ names, name ∈ hierarchy)
    (hdone : hierarchy.Settled done) (hvisits : hierarchy.Visits names visited) :
    visited.foldl addUnlessSeen done = out := by
  fun_induction walk hierarchy path names done generalizing out visited with
  | case1 path done =>
    obtain rfl := Except.ok.inj h
    cases hvisits
    rfl
  | case2 path name names done hknown ih =>
    cases hvisits with
    | @cons _ _ above rest hparents hrest =>
      have hknown : name ∈ done := List.contains_iff_mem.mp hknown
      have habove : ∀ other ∈ above, other ∈ done := fun other hother => by
        obtain ⟨parent, hparent, hreach⟩ := hparents.reaches hother
        exact hdone.mem_of_reaches hclosed hknown (.head hparent hreach)
      rw [List.foldl_append, foldl_addUnlessSeen_of_subset habove, List.foldl_cons,
        addUnlessSeen_of_mem hknown]
      exact ih h (fun other hother => hnames other (List.mem_cons_of_mem _ hother)) hdone hrest
  | case3 => cases h
  | case4 => cases h
  | case5 path name names done hnew hoff hdeclared later hwalk ihparents ihnames =>
    cases hvisits with
    | @cons _ _ above rest hparents hrest =>
      have hlater := ihparents hwalk (fun parent hparent => hclosed name parent hparent) hdone
        hparents
      obtain ⟨hsettled, hkept, hall⟩ := settled_of_walk hwalk hdone
      -- a name that its own parents come to would be on a circle
      have hfresh : name ∉ later := fun hmem => by
        rcases reaches_of_walk hwalk hmem with hmem | ⟨parent, hparent, hreach⟩
        · exact hnew (List.contains_iff_mem.mpr hmem)
        · exact hacyclic name (.head' hparent hreach)
      rw [List.foldl_append, hlater, List.foldl_cons, addUnlessSeen_of_not_mem hfresh]
      refine ihnames h (fun other hother => hnames other (List.mem_cons_of_mem _ hother))
        (.snoc hsettled fun parent hmem hextends => hall parent hextends hmem) hrest
  | case6 path name names done hnew hoff hundeclared ih =>
    exact absurd (hnames name List.mem_cons_self) hundeclared

end Hierarchy

/-! ## The fields of an interface -/

namespace Definition

variable {config : Config} {definition : Definition} {name field : String} {type : TypeRef}

/-- A field that is new comes behind those that are inherited so far. -/
theorem keys_insert {all : Layout} (h : field ∉ all) :
    (all.insert field type).keys = all.keys ++ [field] := by
  have hsize : all.size = all.keys.length := (List.length_map _).symm
  rw [OrderedMap.insert, dif_neg h, OrderedMap.keys_insertAt, hsize, List.take_length,
    List.drop_length]

theorem keys_inheritFields {interface : String} {fields : List (String × TypeRef)}
    {all out : Layout} (h : inheritFields interface fields all = .ok out) :
    out.keys = (fields.map Prod.fst).foldl addUnlessSeen all.keys := by
  induction fields generalizing all with
  | nil =>
    obtain rfl := Except.ok.inj h
    rfl
  | cons entry rest ih =>
    obtain ⟨field, type⟩ := entry
    rw [inheritFields] at h
    rw [List.map_cons, List.foldl_cons]
    split at h
    · rename_i hnone
      have hfresh : field ∉ all := fun hmem => by
        simpa [hnone] using OrderedMap.get?_isSome_iff.mpr hmem
      rw [ih h, keys_insert hfresh, addUnlessSeen_of_not_mem hfresh]
    · rename_i inherited hsome
      split at h
      · rw [ih h, addUnlessSeen_of_mem (OrderedMap.mem_of_get? hsome)]
      · cases h

/-- **The inherited fields are those of the interfaces**, in the order of their first use. -/
theorem keys_inheritAll {own : OrderedMap Layout} {names : List String} {all out : Layout}
    (h : inheritAll own names all = .ok out) :
    out.keys = (names.flatMap fun name => ((own.get? name).getD ∅).keys).foldl addUnlessSeen
      all.keys := by
  induction names generalizing all with
  | nil =>
    obtain rfl := Except.ok.inj h
    rfl
  | cons name rest ih =>
    obtain ⟨middle, hmiddle, hrest⟩ := bind_eq_ok.mp h
    rw [ih hrest, keys_inheritFields hmiddle, List.flatMap_cons, List.foldl_append]
    rfl

/-- Who extends whom. -/
def extensions (definition : Definition) : Hierarchy :=
  definition.interfaces.map Interface.extended

/-- The fields that each interface declares itself. -/
def declared (definition : Definition) : OrderedMap Layout :=
  definition.interfaces.map Interface.fields

/-- The names of the fields that an interface declares itself, in order. -/
def fieldNames (definition : Definition) (name : String) : List String :=
  ((definition.declared.get? name).getD ∅).keys

/-- **An interface or one that it extends**, be it through others, **declares a field**. -/
def Declares (definition : Definition) (name field : String) (type : TypeRef) : Prop :=
  ∃ other interface, ReflTransGen definition.extensions.Extends name other ∧
    definition.interfaces.get? other = some interface ∧ interface.fields.get? field = some type

/-- **What an interface is made of**: what is written for it, and what it inherits from its
ancestry. -/
theorem readInterface_eq_ok {own : OrderedMap Layout} {written : InterfaceConfig}
    {interface : Interface} (h : readInterface config own name written = .ok interface) :
    ∃ names, (hierarchy config).ancestry name = .ok names ∧
      inheritAll own names ∅ = .ok interface.allFields ∧
      interface.extended = written.extended ∧ interface.fields = (own.get? name).getD ∅ := by
  obtain ⟨names, hnames, h⟩ := bind_eq_ok.mp h
  obtain ⟨all, hall, h⟩ := bind_eq_ok.mp h
  obtain rfl := Except.ok.inj h
  cases hancestry : (hierarchy config).ancestry name with
  | error circle =>
    rw [hancestry] at hnames
    cases hnames
  | ok found =>
    rw [hancestry] at hnames
    obtain rfl := Except.ok.inj hnames
    exact ⟨_, rfl, hall, rfl, rfl⟩

/-- **The interfaces of a definition** form a hierarchy without circles, and each has the fields of
its ancestry. -/
theorem exists_ancestry_of_ofConfig (h : ofConfig config = .ok definition) :
    definition.extensions.Acyclic ∧ definition.extensions.Closed ∧
      ∀ name interface, definition.interfaces.get? name = some interface →
        ∃ names, definition.extensions.ancestry name = .ok names ∧
          inheritAll definition.declared names ∅ = .ok interface.allFields := by
  obtain ⟨hextensions, hacyclic, own, hown, hread⟩ :=
    readInterfaces_eq_ok_iff.mp (ofConfig_eq_ok_iff.mp h).interfaces
  have hkeys := OrderedMap.keys_of_traverse hread
  have hinterface : ∀ {name interface}, definition.interfaces.get? name = some interface →
      ∃ written names, config.interfaces.get? name = some written ∧
        (hierarchy config).ancestry name = .ok names ∧
        inheritAll own names ∅ = .ok interface.allFields ∧
        interface.extended = written.extended ∧ own.get? name = some interface.fields := by
    intro name interface hget
    obtain ⟨written, hwritten, hinterface⟩ := OrderedMap.get?_of_traverse hread hget
    obtain ⟨names, hnames, hall, hextended, hfields⟩ := readInterface_eq_ok hinterface
    have hmem : name ∈ own := by
      rw [OrderedMap.mem_iff_mem_keys, OrderedMap.keys_of_traverse hown]
      exact OrderedMap.mem_of_get? hwritten
    obtain ⟨layout, hlayout⟩ := OrderedMap.exists_get?_of_mem hmem
    rw [hlayout, Option.getD_some] at hfields
    exact ⟨written, names, hwritten, hnames, hall, hextended, hfields ▸ hlayout⟩
  have hhierarchy : definition.extensions = hierarchy config := by
    refine OrderedMap.eq_of_get? ?_ fun name hname => ?_
    · rw [extensions, hierarchy, OrderedMap.keys_map, OrderedMap.keys_map, hkeys]
    · obtain ⟨interface, hget⟩ :=
        OrderedMap.exists_get?_of_mem (OrderedMap.mem_map_iff.mp hname)
      obtain ⟨written, -, hwritten, -, -, hextended, -⟩ := hinterface hget
      rw [extensions, hierarchy, OrderedMap.get?_map, OrderedMap.get?_map, hget, hwritten,
        Option.map_some, Option.map_some, hextended]
  have hdeclared : definition.declared = own := by
    refine OrderedMap.eq_of_get? ?_ fun name hname => ?_
    · rw [declared, OrderedMap.keys_map, hkeys, OrderedMap.keys_of_traverse hown]
    · obtain ⟨interface, hget⟩ :=
        OrderedMap.exists_get?_of_mem (OrderedMap.mem_map_iff.mp hname)
      obtain ⟨-, -, -, -, -, -, hfields⟩ := hinterface hget
      rw [declared, OrderedMap.get?_map, hget, Option.map_some, hfields]
  rw [hhierarchy, hdeclared]
  refine ⟨hacyclic, closed_of_declared fun name written hwritten => ?_,
    fun name interface hget => ?_⟩
  · exact checkInterfaceNames_eq_ok_iff.mp
      (hextensions _ (OrderedMap.get?_eq_some_iff.mp hwritten))
  · obtain ⟨-, names, -, hnames, hall, -, -⟩ := hinterface hget
    exact ⟨names, hnames, hall⟩

section Interfaces

variable {interface : Interface} (h : ofConfig config = .ok definition)
  (hget : definition.interfaces.get? name = some interface)

include h hget

/-- **An interface has the fields that are declared by it or above it**, and no others. -/
theorem get?_allFields_iff :
    interface.allFields.get? field = some type ↔ definition.Declares name field type := by
  obtain ⟨-, hclosed, hall⟩ := exists_ancestry_of_ofConfig h
  obtain ⟨names, hnames, hfields⟩ := hall name interface hget
  have hname : name ∈ definition.extensions :=
    OrderedMap.mem_map_iff.mpr (OrderedMap.mem_of_get? hget)
  have hnone : (∅ : Layout).get? field = none := rfl
  rw [(inheritAll_spec definition.declared names ∅).2 _ hfields]
  simp only [Inherits, hnone, reduceCtorEq, false_or, Declares,
    Hierarchy.mem_ancestry_iff hnames hclosed hname, declared, OrderedMap.get?_map,
    Option.map_eq_some_iff]
  constructor
  · rintro ⟨other, hreach, layout, ⟨interface, hinterface, rfl⟩, hfield⟩
    exact ⟨other, interface, hreach, hinterface, hfield⟩
  · rintro ⟨other, interface, hreach, hinterface, hfield⟩
    exact ⟨other, hreach, _, ⟨interface, hinterface, rfl⟩, hfield⟩

/-- **The fields of an interface are in the order in which the walk first comes to them.** -/
theorem exists_visits_allFields : ∃ visited, definition.extensions.Visits [name] visited ∧
    ListsFirstUses (visited.flatMap definition.fieldNames) interface.allFields.keys := by
  obtain ⟨hacyclic, hclosed, hall⟩ := exists_ancestry_of_ofConfig h
  obtain ⟨names, hnames, hfields⟩ := hall name interface hget
  have hname : name ∈ definition.extensions :=
    OrderedMap.mem_map_iff.mpr (OrderedMap.mem_of_get? hget)
  -- the interface is settled by its own walk, so the walk with repetitions ends too
  obtain ⟨hsettled, -, hwalked⟩ := Hierarchy.settled_of_walk hnames .nil
  have hacc := hsettled.acc (hwalked name List.mem_cons_self hname)
  obtain ⟨above, habove⟩ := Hierarchy.exists_visits_of_acc hacc
  have hvisits : definition.extensions.Visits [name] (above ++ [name]) := .cons habove .nil
  have hfold := Hierarchy.foldl_of_walk hnames hacyclic hclosed
    (List.forall_mem_singleton.mpr hname) .nil hvisits
  refine ⟨_, hvisits, ?_⟩
  have hkeys : interface.allFields.keys =
      ((above ++ [name]).flatMap definition.fieldNames).foldl addUnlessSeen [] := by
    rw [keys_inheritAll hfields, ← hfold]
    exact foldl_flatMap_addUnlessSeen definition.fieldNames (above ++ [name]) []
  rw [hkeys]
  exact .foldl _

end Interfaces

end Definition

end SchemaEvolution

import SchemaEvolution.Proofs.History
import SchemaEvolution.Proofs.InterfaceFields

/-!
# Interfaces are checked through the whole hierarchy

Every base type is checked against the fields of the interfaces that it implements, at one version.
Since an interface has the fields of all that it extends, the check succeeds exactly when a base
type has whatever is declared by any interface that its own ones reach. A failed check names what is
missing or different.

## Main definitions

* `Layout.Violates`: a layout lacks a field, or has it with another type
* `History.Reports`: what a failed check reports

## Main results

* `History.checkFields_eq_ok_iff`, `History.checkImplemented_eq_ok_iff`: one interface and several
* `History.checkInterfaces_eq_ok_iff`: when the check succeeds
* `History.reports_of_checkInterfaces`: what it reports when it fails
* `History.interfaces_conform`: interfaces are checked through the whole hierarchy
-/

namespace SchemaEvolution

/-! ## What is checked -/

/-- **A layout lacks a field, or has it with another type.** -/
inductive Layout.Violates (layout : Layout) (field : String) (expected : TypeRef) :
    ConformanceFault → Prop
  | missing (h : layout.get? field = none) : Violates layout field expected .missing
  | differs {actual : TypeRef} (h : layout.get? field = some actual) (hother : actual ≠ expected) :
      Violates layout field expected (.differs actual expected)

namespace History

variable {definition : Definition} {history : History} {version : Nat} {layout : Layout}
  {type interface : String}

theorem checkFields_eq_ok_iff {fields : List (String × TypeRef)} :
    checkFields layout type interface fields = .ok () ↔
      ∀ entry ∈ fields, layout.get? entry.1 = some entry.2 := by
  induction fields with
  | nil => exact iff_of_true rfl nofun
  | cons entry rest ih =>
    obtain ⟨field, expected⟩ := entry
    rw [List.forall_mem_cons, ← ih, checkFields]
    cases layout.get? field with
    | none => exact iff_of_false nofun (fun h => nomatch h.1)
    | some actual =>
      by_cases hsame : actual = expected
      · simp [hsame]
      · simp [hsame]

/-- The first field that fails is the answer. -/
theorem exists_of_checkFields_eq_error {fields : List (String × TypeRef)} {e : SchemaError}
    (h : checkFields layout type interface fields = .error e) : ∃ entry ∈ fields, ∃ fault,
      layout.Violates entry.1 entry.2 fault ∧
        e = .interfaceMismatch type interface entry.1 fault := by
  induction fields with
  | nil => cases h
  | cons entry rest ih =>
    obtain ⟨field, expected⟩ := entry
    rw [checkFields] at h
    split at h
    · rename_i hnone
      exact ⟨_, List.mem_cons_self, _, .missing hnone, (Except.error.inj h).symm⟩
    · rename_i actual hsome
      split at h
      · obtain ⟨entry, hentry, hrest⟩ := ih h
        exact ⟨entry, List.mem_cons_of_mem _ hentry, hrest⟩
      · exact ⟨_, List.mem_cons_self, _, .differs hsome ‹_›, (Except.error.inj h).symm⟩

/-- The names of a list are those of interfaces. -/
def AllDeclared (definition : Definition) (names : List String) : Prop :=
  ∀ name ∈ names, ∃ interface, definition.interfaces.get? name = some interface

theorem checkImplemented_eq_ok_iff {names : List String} (hnames : AllDeclared definition names) :
    checkImplemented definition layout type names = .ok () ↔
      ∀ name ∈ names, ∀ interface, definition.interfaces.get? name = some interface →
        ∀ field expected, interface.allFields.get? field = some expected →
          layout.get? field = some expected := by
  induction names with
  | nil => exact iff_of_true rfl nofun
  | cons name rest ih =>
    obtain ⟨⟨interface, hget⟩, hrest⟩ := List.forall_mem_cons.mp hnames
    rw [List.forall_mem_cons, ← ih hrest, checkImplemented, hget]
    have hfirst : checkFields layout type name interface.allFields.entries = .ok () ↔
        ∀ field expected, interface.allFields.get? field = some expected →
          layout.get? field = some expected := by
      simp only [checkFields_eq_ok_iff, Prod.forall, OrderedMap.get?_eq_some_iff]
    simp only [bind_eq_ok, Option.some.injEq, forall_eq', ← hfirst]
    constructor
    · rintro ⟨⟨⟩, hfields, hlater⟩
      exact ⟨hfields, hlater⟩
    · rintro ⟨hfields, hlater⟩
      exact ⟨(), hfields, hlater⟩

/-- The first interface that fails is the answer. -/
theorem exists_of_checkImplemented_eq_error {names : List String}
    (hnames : AllDeclared definition names) {e : SchemaError}
    (h : checkImplemented definition layout type names = .error e) :
    ∃ name ∈ names, ∃ interface field expected fault,
      definition.interfaces.get? name = some interface ∧
        interface.allFields.get? field = some expected ∧ layout.Violates field expected fault ∧
          e = .interfaceMismatch type name field fault := by
  induction names with
  | nil => cases h
  | cons name rest ih =>
    obtain ⟨⟨interface, hget⟩, hrest⟩ := List.forall_mem_cons.mp hnames
    rw [checkImplemented, hget] at h
    rcases bind_eq_error.mp h with hfields | ⟨⟨⟩, -, hlater⟩
    · obtain ⟨⟨field, expected⟩, hentry, fault, hfault, rfl⟩ :=
        exists_of_checkFields_eq_error hfields
      exact ⟨name, List.mem_cons_self, interface, field, expected, fault, hget,
        OrderedMap.get?_eq_some_iff.mpr hentry, hfault, rfl⟩
    · obtain ⟨other, hother, hfault⟩ := ih hrest hlater
      exact ⟨other, List.mem_cons_of_mem _ hother, hfault⟩

/-- **What a failed check reports**: a base type, one of the interfaces that it implements, and a
field of that interface which the layout of the type lacks or has with another type. -/
inductive Reports (definition : Definition) (history : History) (version : Nat) :
    SchemaError → Prop
  | mismatch {type name field : String} {base : BaseType} {interface : Interface} {layout : Layout}
      {expected : TypeRef} {fault : ConformanceFault}
      (htype : definition.baseTypes.get? type = some base) (hname : name ∈ base.implemented)
      (hget : definition.interfaces.get? name = some interface)
      (hfield : interface.allFields.get? field = some expected)
      (hlayout : history.layout? version type = some layout)
      (hfault : layout.Violates field expected fault) :
      Reports definition history version (.interfaceMismatch type name field fault)

theorem exists_of_checkTypes_eq_error {entries : List (String × BaseType)} {e : SchemaError}
    (h : checkTypes definition history version entries = .error e) :
    ∃ entry ∈ entries, ∃ layout, history.layout? version entry.1 = some layout ∧
      checkImplemented definition layout entry.1 entry.2.implemented = .error e := by
  induction entries with
  | nil => cases h
  | cons entry rest ih =>
    obtain ⟨name, type⟩ := entry
    have hlater : checkTypes definition history version rest = .error e →
        ∃ entry ∈ (name, type) :: rest, ∃ layout, history.layout? version entry.1 = some layout ∧
          checkImplemented definition layout entry.1 entry.2.implemented = .error e := by
      intro hrest
      obtain ⟨entry, hentry, hfault⟩ := ih hrest
      exact ⟨entry, List.mem_cons_of_mem _ hentry, hfault⟩
    rw [checkTypes] at h
    split at h
    · exact hlater h
    · rename_i layout hlayout
      rcases bind_eq_error.mp h with hfirst | ⟨⟨⟩, -, hrest⟩
      · exact ⟨_, List.mem_cons_self, layout, hlayout, hfirst⟩
      · exact hlater hrest

end History

/-- What a base type implements are interfaces. -/
theorem Definition.allDeclared_of_ofConfig {config : Config} {definition : Definition}
    (h : ofConfig config = .ok definition) {type : String} {base : BaseType}
    (htype : definition.baseTypes.get? type = some base) :
    History.AllDeclared definition base.implemented := by
  have hresolves := ofConfig_eq_ok_iff.mp h
  obtain ⟨-, -, own, -, hread⟩ := readInterfaces_eq_ok_iff.mp hresolves.interfaces
  obtain ⟨written, -, hbase⟩ := OrderedMap.get?_of_traverse hresolves.baseTypes htype
  obtain ⟨fields, -, hbase⟩ := bind_eq_ok.mp hbase
  obtain ⟨⟨⟩, himplemented, hbase⟩ := bind_eq_ok.mp hbase
  obtain rfl := Except.ok.inj hbase
  intro name hname
  refine OrderedMap.exists_get?_of_mem ?_
  rw [OrderedMap.mem_iff_mem_keys, OrderedMap.keys_of_traverse hread]
  exact checkInterfaceNames_eq_ok_iff.mp himplemented name hname

namespace History

section Check

variable {config : Config} {definition : Definition} {chain : Chain} {history : History}
  {version : Nat} (h : Definition.ofConfig config = .ok definition)
  (hhistory : ofChain definition chain = .ok history) (hversion : version < history.size)

include h hhistory hversion

/-- **The check succeeds exactly when all base types have what is declared** by any interface that
one of theirs reaches. -/
theorem checkInterfaces_eq_ok_iff : history.checkInterfaces definition version = .ok () ↔
    ∀ type base, definition.baseTypes.get? type = some base →
      ∃ layout, history.layout? version type = some layout ∧ ∀ name ∈ base.implemented,
        ∀ field expected, definition.Declares name field expected →
          layout.get? field = some expected := by
  rw [checkInterfaces, checkTypes_eq_ok_iff]
  have hcurrent : version ≤ chain.currentIndex := by
    have hsize := size_of_ofChain hhistory
    omega
  constructor
  · intro hall type base htype
    obtain ⟨layout, hlayout⟩ := exists_layout hhistory (OrderedMap.mem_of_get? htype) hcurrent
    have hdeclared := Definition.allDeclared_of_ofConfig h htype
    have hchecked := (checkImplemented_eq_ok_iff hdeclared).mp
      (hall _ (OrderedMap.get?_eq_some_iff.mp htype) layout hlayout)
    refine ⟨layout, hlayout, fun name hname field expected hdeclares => ?_⟩
    obtain ⟨interface, hget⟩ := hdeclared name hname
    exact hchecked name hname interface hget field expected
      ((Definition.get?_allFields_iff h hget).mpr hdeclares)
  · rintro hall ⟨type, base⟩ hentry layout hlayout
    have htype := OrderedMap.get?_eq_some_iff.mpr hentry
    obtain ⟨layout', hlayout', hfields⟩ := hall type base htype
    obtain rfl := Option.some.inj (hlayout.symm.trans hlayout')
    refine (checkImplemented_eq_ok_iff (Definition.allDeclared_of_ofConfig h htype)).mpr ?_
    intro name hname interface hget field expected hfield
    exact hfields name hname field expected ((Definition.get?_allFields_iff h hget).mp hfield)

omit hhistory hversion in
/-- **A failed check reports a violation.** -/
theorem reports_of_checkInterfaces {e : SchemaError}
    (hcheck : history.checkInterfaces definition version = .error e) :
    Reports definition history version e := by
  obtain ⟨⟨type, base⟩, hentry, layout, hlayout, hfailed⟩ := exists_of_checkTypes_eq_error hcheck
  have htype := OrderedMap.get?_eq_some_iff.mpr hentry
  obtain ⟨name, hname, interface, field, expected, fault, hget, hfield, hfault, rfl⟩ :=
    exists_of_checkImplemented_eq_error (Definition.allDeclared_of_ofConfig h htype) hfailed
  exact .mismatch htype hname hget hfield hlayout hfault

end Check

/-- **Interfaces are checked through the whole hierarchy.** An interface of a definition has the
fields that it or any interface above it declares, each once and with its type, in the order in
which a walk that goes through the parents first comes to them. In a history of the definition the
check at a version succeeds exactly when the layouts of all base types have the fields that are
declared by any interface that one of theirs reaches, with exactly their types. If it fails, the
error names a base type, one of its interfaces, and a field of that interface which the layout lacks
or has with another type. -/
theorem interfaces_conform {config : Config} {definition : Definition}
    (h : Definition.ofConfig config = .ok definition) :
    (∀ name interface, definition.interfaces.get? name = some interface →
      (∀ field type, interface.allFields.get? field = some type ↔
        definition.Declares name field type) ∧
      ∃ visited, definition.extensions.Visits [name] visited ∧
        ListsFirstUses (visited.flatMap definition.fieldNames) interface.allFields.keys) ∧
    ∀ chain history, ofChain definition chain = .ok history → ∀ version < history.size,
      (history.checkInterfaces definition version = .ok () ↔
        ∀ type base, definition.baseTypes.get? type = some base →
          ∃ layout, history.layout? version type = some layout ∧ ∀ name ∈ base.implemented,
            ∀ field expected, definition.Declares name field expected →
              layout.get? field = some expected) ∧
      ∀ e, history.checkInterfaces definition version = .error e →
        Reports definition history version e :=
  ⟨fun _ _ hget => ⟨fun _ _ => Definition.get?_allFields_iff h hget,
      Definition.exists_visits_allFields h hget⟩,
    fun _ _ hhistory _ hversion => ⟨checkInterfaces_eq_ok_iff h hhistory hversion,
      fun _ hcheck => reports_of_checkInterfaces h hcheck⟩⟩

set_option maxRecDepth 20000 in
theorem checked_diamond : (do
    let definition ← (Definition.ofConfig Config.diamond).toOption
    let chain ← (Chain.ofDefinition definition).toOption
    let history ← (ofChain definition chain).toOption
    let interface ← definition.interfaces.get? "Row"
    let base ← definition.baseTypes.get? "A"
    return (interface.allFields.entries, base.implemented, history.size,
      (history.checkInterfaces definition 0).toOption)) =
    some ([("id", ⟨"int", .array⟩), ("on", ⟨"Day", .nullable⟩)], ["Row"], 1, some ()) := by
  cbv

/-- The base type has the field that `Row` inherits twice, through `Key` and directly. -/
theorem interfaces_conform_diamond : ∃ definition chain history layout,
    Definition.ofConfig Config.diamond = .ok definition ∧
      Chain.ofDefinition definition = .ok chain ∧ ofChain definition chain = .ok history ∧
        history.checkInterfaces definition 0 = .ok () ∧ history.layout? 0 "A" = some layout ∧
          definition.Declares "Row" "id" ⟨"int", .array⟩ ∧
            layout.get? "id" = some ⟨"int", .array⟩ := by
  have hchecked := checked_diamond
  simp only [Option.bind_eq_bind, Option.bind_eq_some_iff, toOption_eq_some_iff, pure,
    Option.some.injEq, Prod.mk.injEq] at hchecked
  obtain ⟨definition, hdefinition, chain, hchain, history, hhistory, interface, hget, base, hbase,
    hfields, himplemented, hsize, hcheck⟩ := hchecked
  obtain ⟨hinterfaces, hhistories⟩ := interfaces_conform hdefinition
  have hfield : interface.allFields.get? "id" = some ⟨"int", .array⟩ := by
    rw [OrderedMap.get?, hfields]
    rfl
  have hdeclares := ((hinterfaces _ _ hget).1 _ _).mp hfield
  obtain ⟨hiff, -⟩ := hhistories _ _ hhistory 0 (hsize ▸ Nat.zero_lt_one)
  obtain ⟨layout, hlayout, hall⟩ := hiff.mp hcheck "A" base hbase
  exact ⟨definition, chain, history, layout, hdefinition, hchain, hhistory, hcheck, hlayout,
    hdeclares, hall "Row" (by simp [himplemented]) "id" _ hdeclares⟩

end History

end SchemaEvolution

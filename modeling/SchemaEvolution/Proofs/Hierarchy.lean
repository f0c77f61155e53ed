import SchemaEvolution.Definition.Hierarchy
import SchemaEvolution.Proofs.Maps

/-!
# The walk finds a circle exactly if there is one

The depth-first walk lists an interface behind all that it extends. So where it gets through, no
interface extends itself, and where it meets an interface on the path down to it, one does. What
the walk does depends on who extends whom only, not on the order of the declarations.

## Main definitions

* `Hierarchy.Extends`: an interface extends another one directly
* `Hierarchy.Acyclic`: no interface extends itself, be it through others
* `Hierarchy.Settled`: a list of interfaces, each behind those that it extends

## Main results

* `Hierarchy.settled_of_walk`: the walk lists interfaces behind those that they extend
* `Hierarchy.exists_extends_of_walk`: where the walk stops there is a circle
* `Hierarchy.circle?_eq_none_iff`: no circle is found exactly if there is none
* `Hierarchy.walk_congr`: the walk depends on who extends whom only
-/

namespace SchemaEvolution.Hierarchy

variable {hierarchy hierarchy' : Hierarchy} {name parent : String}
  {path names done out circle : List String}

/-- An interface extends another one directly. -/
def Extends (hierarchy : Hierarchy) (name parent : String) : Prop :=
  parent ∈ hierarchy.parents name

/-- **No interface extends itself**, be it through others. -/
def Acyclic (hierarchy : Hierarchy) : Prop :=
  ∀ name, ¬Relation.TransGen hierarchy.Extends name name

theorem mem_of_extends (h : hierarchy.Extends name parent) : name ∈ hierarchy := by
  rw [← OrderedMap.get?_isSome_iff]
  by_contra hnone
  rw [Option.not_isSome_iff_eq_none] at hnone
  simp [Extends, parents, hnone] at h

/-! ## A walk that gets through -/

/-- **A list of interfaces, each behind those that it extends.** -/
inductive Settled (hierarchy : Hierarchy) : List String → Prop
  | nil : Settled hierarchy []
  | snoc {done : List String} {name : String} (before : Settled hierarchy done)
      (parents : ∀ parent ∈ hierarchy, hierarchy.Extends name parent → parent ∈ done) :
      Settled hierarchy (done ++ [name])

/-- **The walk lists interfaces behind those that they extend**, and leaves out none. -/
theorem settled_of_walk (h : hierarchy.walk path names done = .ok out)
    (hdone : hierarchy.Settled done) :
    hierarchy.Settled out ∧ (∀ name ∈ done, name ∈ out) ∧
      ∀ name ∈ names, name ∈ hierarchy → name ∈ out := by
  fun_induction walk hierarchy path names done generalizing out with
  | case1 path done =>
    obtain rfl := Except.ok.inj h
    exact ⟨hdone, fun _ hname => hname, nofun⟩
  | case2 path name names done hknown ih =>
    obtain ⟨hsettled, hkept, hall⟩ := ih h hdone
    refine ⟨hsettled, hkept, List.forall_mem_cons.mpr ⟨fun _ => hkept name ?_, hall⟩⟩
    simpa using hknown
  | case3 => cases h
  | case4 => cases h
  | case5 path name names done hnew hoff hdeclared later hwalk ihparents ihnames =>
    obtain ⟨hlater, hkept, hparents⟩ := ihparents hwalk hdone
    obtain ⟨hsettled, hkept', hall⟩ :=
      ihnames h (.snoc hlater fun parent hmem hextends => hparents parent hextends hmem)
    refine ⟨hsettled, fun other hother => ?_, List.forall_mem_cons.mpr ⟨fun _ => ?_, hall⟩⟩
    · exact hkept' other (List.mem_append_left _ (hkept other hother))
    · exact hkept' name (by simp)
  | case6 path name names done hnew hoff hundeclared ih =>
    obtain ⟨hsettled, hkept, hall⟩ := ih h hdone
    exact ⟨hsettled, hkept, List.forall_mem_cons.mpr
      ⟨fun hdeclared => absurd hdeclared hundeclared, hall⟩⟩

/-- From an interface that is settled no chain of extensions goes on forever. -/
theorem Settled.acc (h : hierarchy.Settled done) (hname : name ∈ done) :
    Acc (flip hierarchy.Extends) name := by
  induction h generalizing name with
  | nil => cases hname
  | @snoc done last _ hparents ih =>
    rcases List.mem_append.mp hname with hbefore | hlast
    · exact ih hbefore
    · obtain rfl := List.mem_singleton.mp hlast
      refine ⟨name, fun parent hextends => ?_⟩
      by_cases hdeclared : parent ∈ hierarchy
      · exact ih (hparents parent hdeclared hextends)
      · exact ⟨parent, fun other hother => absurd (mem_of_extends hother) hdeclared⟩

theorem not_transGen_of_acc (h : Acc (flip hierarchy.Extends) name) :
    ¬Relation.TransGen hierarchy.Extends name name := by
  induction h with
  | intro name _ ih =>
    intro hcircle
    obtain ⟨parent, hextends, hback⟩ := Relation.TransGen.head'_iff.mp hcircle
    exact ih parent hextends (.tail' hback hextends)

/-! ## A walk that stops -/

/-- **Where the walk stops there is a circle**, if every interface on the path leads to those that
are walked. -/
theorem exists_extends_of_walk (h : hierarchy.walk path names done = .error circle)
    (hpath : ∀ above ∈ path, ∀ name ∈ names, Relation.TransGen hierarchy.Extends above name) :
    ∃ name, Relation.TransGen hierarchy.Extends name name := by
  have hrest : ∀ {path : List String} {name : String} {names : List String},
      (∀ above ∈ path, ∀ other ∈ name :: names,
        Relation.TransGen hierarchy.Extends above other) →
      ∀ above ∈ path, ∀ other ∈ names, Relation.TransGen hierarchy.Extends above other :=
    fun hpath above habove other hother => hpath above habove other (List.mem_cons_of_mem _ hother)
  have hdown : ∀ {path : List String} {name : String} {names : List String},
      (∀ above ∈ path, ∀ other ∈ name :: names,
        Relation.TransGen hierarchy.Extends above other) →
      ∀ above ∈ path ++ [name], ∀ parent ∈ hierarchy.parents name,
        Relation.TransGen hierarchy.Extends above parent := by
    intro path name names hpath above habove parent hparent
    rcases List.mem_append.mp habove with habove | hself
    · exact (hpath above habove name List.mem_cons_self).tail hparent
    · obtain rfl := List.mem_singleton.mp hself
      exact .single hparent
  fun_induction walk hierarchy path names done with
  | case1 => cases h
  | case2 path name names done _ ih => exact ih h (hrest hpath)
  | case3 path name names done _ honPath =>
    exact ⟨name, hpath name (by simpa using honPath) name List.mem_cons_self⟩
  | case4 path name names done _ _ _ found hwalk ih =>
    obtain rfl := Except.error.inj h
    exact ih hwalk (hdown hpath)
  | case5 path name names done _ _ _ _ _ _ ih => exact ih h (hrest hpath)
  | case6 path name names done _ _ _ ih => exact ih h (hrest hpath)

/-- **No circle is found exactly if there is none.** -/
theorem circle?_eq_none_iff : hierarchy.circle? = none ↔ hierarchy.Acyclic := by
  unfold circle?
  split
  · rename_i circle hwalk
    refine iff_of_false (fun h => ?_) fun hacyclic => ?_
    · cases h
    · obtain ⟨name, hcircle⟩ :=
        exists_extends_of_walk hwalk fun _ hmem => absurd hmem List.not_mem_nil
      exact hacyclic name hcircle
  · rename_i out hwalk
    refine iff_of_true rfl fun name hcircle => ?_
    obtain ⟨hsettled, -, hall⟩ := settled_of_walk hwalk .nil
    obtain ⟨_, hextends, -⟩ := Relation.TransGen.head'_iff.mp hcircle
    have hdeclared := mem_of_extends hextends
    exact not_transGen_of_acc (hsettled.acc (hall name hdeclared hdeclared)) hcircle

/-! ## What the walk depends on -/

section Congruence

variable (hmem : ∀ name, name ∈ hierarchy ↔ name ∈ hierarchy')
  (hparents : ∀ name, hierarchy.parents name = hierarchy'.parents name)

include hmem hparents

/-- **The walk depends on who extends whom only.** -/
theorem walk_congr (path names done : List String) :
    hierarchy.walk path names done = hierarchy'.walk path names done := by
  fun_induction walk hierarchy path names done with
  | case1 => simp [walk]
  | case2 path name names done hknown ih => rw [walk, if_pos hknown, ih]
  | case3 path name names done hnew honPath => rw [walk, if_neg hnew, dif_pos honPath]
  | case4 path name names done hnew hoff hdeclared circle hwalk ih =>
    rw [walk, if_neg hnew, dif_neg hoff, dif_pos ((hmem name).mp hdeclared), ← hparents, ← ih,
      hwalk]
  | case5 path name names done hnew hoff hdeclared later hwalk ihparents ihnames =>
    rw [walk, if_neg hnew, dif_neg hoff, dif_pos ((hmem name).mp hdeclared), ← hparents,
      ← ihparents, hwalk]
    exact ihnames
  | case6 path name names done hnew hoff hundeclared ih =>
    rw [walk, if_neg hnew, dif_neg hoff, dif_neg (mt (hmem name).mpr hundeclared), ih]

theorem ancestry_congr (name : String) : hierarchy.ancestry name = hierarchy'.ancestry name :=
  walk_congr hmem hparents [] [name] []

omit hmem in
theorem acyclic_congr : hierarchy.Acyclic ↔ hierarchy'.Acyclic := by
  have hsame : hierarchy.Extends = hierarchy'.Extends := by
    funext name parent
    simp only [Extends, hparents]
  rw [Acyclic, Acyclic, hsame]

end Congruence

end SchemaEvolution.Hierarchy

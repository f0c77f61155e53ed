import SchemaEvolution.Proofs.Labels

/-!
# The text of an identity tells nodes apart

The text of an identity joins a name and a version with an at sign. No name of the graph has an at
sign in it: names that are read consist of name characters, and a wrapper has one of the two other
signs in front. So the text stands for one node at most.

## Main definitions

* `Identity.Legible`: an identity whose text shows whether there is a version

## Main results

* `Identity.text_injOn`: legible identities are told apart by their texts
* `Replayed.Sound.not_mem_at`: no name of the graph has an at sign
* `Built.count_text`: the text of a node's identity is that of one node
-/

namespace SchemaEvolution

/-- Two lists that are split at the first place of an item agree in front and behind. -/
theorem append_cons_inj {α : Type} {item : α} {xs ys xs' ys' : List α} (hxs : item ∉ xs)
    (hxs' : item ∉ xs') (h : xs ++ item :: ys = xs' ++ item :: ys') : xs = xs' ∧ ys = ys' := by
  induction xs generalizing xs' with
  | nil =>
    cases xs' with
    | nil => exact ⟨rfl, (List.cons.inj h).2⟩
    | cons x rest =>
      obtain rfl := (List.cons.inj h).1
      exact absurd List.mem_cons_self hxs'
  | cons x rest ih =>
    cases xs' with
    | nil =>
      obtain rfl := (List.cons.inj h).1
      exact absurd List.mem_cons_self hxs
    | cons x' rest' =>
      obtain ⟨rfl, hrest⟩ := List.cons.inj h
      obtain ⟨rfl, hys⟩ := ih (fun hmem => hxs (List.mem_cons_of_mem _ hmem))
        (fun hmem => hxs' (List.mem_cons_of_mem _ hmem)) hrest
      exact ⟨rfl, hys⟩

namespace Identity

theorem toList_text_some (name : String) (version : Nat) :
    (text ⟨name, some version⟩).toList = name.toList ++ '@' :: version.repr.toList := by
  simp [text, String.toList_append]

theorem toList_text_none (name : String) : (text ⟨name, none⟩).toList = name.toList := rfl

/-- **An identity whose text shows whether there is a version**: it has one, or there is no at sign
in its name. -/
def Legible (identity : Identity) : Prop := identity.version = none → '@' ∉ identity.name.toList

theorem not_mem_at_repr (n : Nat) : '@' ∉ n.repr.toList := by
  intro h
  rw [Nat.toList_repr] at h
  exact absurd (Nat.isDigit_of_mem_toDigits (by decide) le_rfl h) (by decide)

/-- **Legible identities are told apart by their texts.** The version is behind the last at sign,
since there is none among its digits, so a name with a version may be any text. -/
theorem text_injOn : Set.InjOn text {identity | identity.Legible} := by
  rintro ⟨name, version⟩ h ⟨name', version'⟩ h' heq
  have hlist := congrArg String.toList heq
  cases version with
  | none =>
    cases version' with
    | none =>
      have hname : name = name' := heq
      rw [hname]
    | some version' =>
      rw [toList_text_none, toList_text_some] at hlist
      have hmem : '@' ∈ name.toList := hlist ▸ List.mem_append_right _ List.mem_cons_self
      exact absurd hmem (h rfl)
  | some version =>
    cases version' with
    | none =>
      rw [toList_text_none, toList_text_some] at hlist
      have hmem : '@' ∈ name'.toList := hlist ▸ List.mem_append_right _ List.mem_cons_self
      exact absurd hmem (h' rfl)
    | some version' =>
      rw [toList_text_some, toList_text_some, ← List.reverse_inj] at hlist
      simp only [List.reverse_append, List.reverse_cons, List.append_assoc,
        List.singleton_append] at hlist
      have hdigits : ∀ n : Nat, '@' ∉ n.repr.toList.reverse := fun n hmem =>
        not_mem_at_repr n (List.mem_reverse.mp hmem)
      obtain ⟨hversion, hname⟩ := append_cons_inj (hdigits version) (hdigits version') hlist
      have hname : name = name' := String.toList_inj.mp (List.reverse_inj.mp hname)
      have hversion : version = version' :=
        Nat.repr_injective (String.toList_inj.mp (List.reverse_inj.mp hversion))
      rw [hname, hversion]

/-- Identities with one text are the same, if their names have no at sign. -/
theorem text_inj {a b : Identity} (ha : '@' ∉ a.name.toList) (hb : '@' ∉ b.name.toList)
    (h : a.text = b.text) : a = b :=
  text_injOn (fun _ => ha) (fun _ => hb) h

end Identity

/-! ## The names of the graph -/

theorem TypeRef.not_isNameChar_at : isNameChar '@' = false := by decide +kernel

theorem TypeRef.IsName.not_mem_at {name : String} (h : IsName name) : '@' ∉ name.toList := by
  intro hmem
  have hchar := h.2 _ hmem
  rw [not_isNameChar_at] at hchar
  cases hchar

/-- **No name of the graph has an at sign.** -/
theorem Replayed.Sound.not_mem_at {replayed : Replayed} (hr : replayed.Sound) {name : String}
    (hname : name ∈ replayed.blueprint.names) : '@' ∉ name.toList := by
  obtain ⟨entry, hentry⟩ := Option.isSome_iff_exists.mp (Blueprint.mem_names_iff.mp hname)
  cases entry with
  | declared category =>
    exact (hr.definition.isName (Replayed.entry_declared_iff.mp hentry)).not_mem_at
  | wrapper ref =>
    obtain ⟨href, -, rfl⟩ := hr.entry_wrapper_iff.mp hentry
    obtain ⟨category, hcategory⟩ := Option.isSome_iff_exists.mp (hr.knows_typeRefs href)
    have hinner := (hr.definition.isName hcategory).not_mem_at
    have hsign : '@' ∉ ref.modifier.sign := by cases ref.modifier <;> decide
    rw [TypeRef.toList_canonical, List.mem_append]
    exact fun hmem => hmem.elim hsign hinner

namespace Built

variable {replayed : Replayed} {graph : Graph} (hr : replayed.Sound)
  (hg : Built replayed 0 graph.sketch)

include hr hg

theorem not_mem_at {node : Node} (h : node ∈ graph.nodes.toList) : '@' ∉ node.name.toList := by
  obtain ⟨id, hget⟩ := List.mem_iff_getElem?.mp h
  rw [Array.getElem?_toList] at hget
  obtain ⟨-, hname, -⟩ := hg.owner hget
  exact hr.not_mem_at hname

/-- **The text of a node's identity is that of one node.** -/
theorem count_text {node : Node} (h : node ∈ graph.nodes.toList) :
    (graph.nodes.toList.map fun node => node.identity.text).count node.identity.text = 1 := by
  have hdistinct : (graph.nodes.toList.map fun node => node.identity.text).Nodup := by
    refine List.pairwise_map.mpr ((List.pairwise_map.mp (hg.nodup_identities hr)).imp_of_mem ?_)
    intro node other hnode hother hne hsame
    exact hne (Identity.text_inj (hg.not_mem_at hr hnode) (hg.not_mem_at hr hother) hsame)
  exact List.count_eq_one_of_mem hdistinct (List.mem_map_of_mem h)

end Built

end SchemaEvolution

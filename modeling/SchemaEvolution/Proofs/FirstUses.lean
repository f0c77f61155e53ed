import Mathlib.Data.List.Nodup
import SchemaEvolution.OrderedMap

/-!
# Lists without repetitions

Where items are collected one after the other, one that has been seen before is left out. What
remains is each item once, in the order of the first uses.

## Main definitions

* `ListsFirstUses`: a list has the items of another one in the order of their first use

## Main results

* `ListsFirstUses.foldl`: items are collected in the order of their first use
* `prefix_foldl_addUnlessSeen`: further items come behind those that have been seen
* `foldl_flatMap_addUnlessSeen`: repetitions may be left out before items are replaced by others
-/

namespace SchemaEvolution

universe u v

variable {α : Type u} [BEq α]

/-- **A list has the items of another one in the order of their first use**, each once. -/
structure ListsFirstUses (items out : List α) : Prop where
  nodup : out.Nodup
  mem_iff : ∀ {item}, item ∈ out ↔ item ∈ items
  ordered : out.Pairwise fun first second => items.idxOf first < items.idxOf second

variable [LawfulBEq α] {items seen : List α} {item : α}

namespace ListsFirstUses

/-- One more item is listed at the end, unless it has been used before. -/
theorem append_singleton (h : ListsFirstUses items seen) (item : α) :
    ListsFirstUses (items ++ [item]) (addUnlessSeen seen item) := by
  have hplace : ∀ {other}, other ∈ seen → (items ++ [item]).idxOf other = items.idxOf other :=
    fun hother => List.idxOf_append_of_mem (h.mem_iff.mp hother)
  have hordered : seen.Pairwise fun first second =>
      (items ++ [item]).idxOf first < (items ++ [item]).idxOf second :=
    h.ordered.imp_of_mem fun hfirst hsecond hless => by
      rwa [hplace hfirst, hplace hsecond]
  by_cases hitem : item ∈ seen
  · rw [addUnlessSeen_of_mem hitem]
    refine ⟨h.nodup, fun {other} => ?_, hordered⟩
    rw [h.mem_iff, List.mem_append, List.mem_singleton]
    exact (or_iff_left_of_imp fun hother => h.mem_iff.mp (hother ▸ hitem)).symm
  · rw [addUnlessSeen_of_not_mem hitem]
    have hnew : item ∉ items := fun hmem => hitem (h.mem_iff.mpr hmem)
    refine ⟨?_, fun {other} => ?_, List.pairwise_append.mpr
      ⟨hordered, List.pairwise_singleton _ _, fun first hfirst second hsecond => ?_⟩⟩
    · exact List.nodup_append.mpr ⟨h.nodup, List.nodup_singleton item, fun first hfirst second
        hsecond hsame => hitem (List.mem_singleton.mp hsecond ▸ hsame ▸ hfirst)⟩
    · rw [List.mem_append, List.mem_append, h.mem_iff]
    · obtain rfl := List.mem_singleton.mp hsecond
      rw [hplace hfirst, List.idxOf_append_of_notMem hnew, List.idxOf_cons_self, Nat.add_zero]
      exact List.idxOf_lt_length_iff.mpr (h.mem_iff.mp hfirst)

theorem foldl_append (h : ListsFirstUses items seen) (rest : List α) :
    ListsFirstUses (items ++ rest) (rest.foldl addUnlessSeen seen) := by
  induction rest generalizing items seen with
  | nil => rwa [List.append_nil]
  | cons item rest ih =>
    have hnext := ih (h.append_singleton item)
    rwa [List.append_assoc, List.singleton_append] at hnext

/-- **A list from which repetitions are left out** has its items in the order of their first use. -/
theorem foldl (items : List α) : ListsFirstUses items (items.foldl addUnlessSeen []) :=
  (⟨List.nodup_nil, Iff.rfl, .nil⟩ : ListsFirstUses ([] : List α) []).foldl_append items

end ListsFirstUses

/-- What has been seen stays in front. -/
theorem prefix_foldl_addUnlessSeen (items seen : List α) :
    seen <+: items.foldl addUnlessSeen seen := by
  induction items generalizing seen with
  | nil => exact List.prefix_rfl
  | cons item rest ih =>
    rw [List.foldl_cons]
    by_cases hitem : item ∈ seen
    · rw [addUnlessSeen_of_mem hitem]
      exact ih seen
    · rw [addUnlessSeen_of_not_mem hitem]
      exact (List.prefix_append seen [item]).trans (ih _)

/-! ## Items that come from others -/

/-- Items that have all been seen add nothing. -/
theorem foldl_addUnlessSeen_of_subset (h : ∀ item ∈ items, item ∈ seen) :
    items.foldl addUnlessSeen seen = seen := by
  induction items with
  | nil => rfl
  | cons item rest ih =>
    obtain ⟨hitem, hrest⟩ := List.forall_mem_cons.mp h
    rw [List.foldl_cons, addUnlessSeen_of_mem hitem, ih hrest]

/-- Leaving out repetitions first makes no difference to what comes from the items. -/
theorem foldl_flatMap_addUnlessSeen {β : Type v} [BEq β] [LawfulBEq β] (f : α → List β)
    (items seen : List α) :
    ((items.foldl addUnlessSeen seen).flatMap f).foldl addUnlessSeen [] =
      (items.flatMap f).foldl addUnlessSeen ((seen.flatMap f).foldl addUnlessSeen []) := by
  induction items generalizing seen with
  | nil => rfl
  | cons item rest ih =>
    rw [List.foldl_cons, ih, List.flatMap_cons, List.foldl_append]
    by_cases hitem : item ∈ seen
    · have hfound : ∀ other ∈ f item, other ∈ (seen.flatMap f).foldl addUnlessSeen [] :=
        fun other hother => (ListsFirstUses.foldl _).mem_iff.mpr
          (List.mem_flatMap.mpr ⟨item, hitem, hother⟩)
      rw [addUnlessSeen_of_mem hitem, foldl_addUnlessSeen_of_subset hfound]
    · rw [addUnlessSeen_of_not_mem hitem, List.flatMap_append, List.foldl_append,
        List.flatMap_singleton]

end SchemaEvolution

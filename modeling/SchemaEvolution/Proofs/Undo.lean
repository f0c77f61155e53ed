import SchemaEvolution.Proofs.Execution
import SchemaEvolution.Proofs.IndependentTypes

/-!
# Transformations can be undone

A transformation that is accepted can be taken back by another one: a move by the move to the old
name and place, an insertion by a removal, and a removal or a conversion by bringing in the old
type. Afterwards all layouts are what they were, with the order of their fields. So no place is off
by one: a field is taken out before its new place is counted, and put back where it stood.

## Main definitions

* `FieldChange.Places`: what a change does to the list of fields
* `FieldChange.undo?`: the change that takes a change of a layout back

## Main results

* `OrderedMap.slot?_eq_some_iff`, `OrderedMap.insertAt_erase`, `OrderedMap.replace_get?`: fields by
  their places, and putting back what was there
* `Layout.places_of_apply`: a field comes to the place that is asked for, and all others keep their
  order
* `Layout.apply_undo`: a change of a layout is taken back
* `Layouts.replay_undo`: a transformation is taken back
-/

namespace SchemaEvolution

/-! ## Fields by their places -/

namespace OrderedMap

variable {α : Type} {m : OrderedMap α} {key : String} {value old : α} {place : Nat}

theorem slotFrom_of_getElem? {entries : List (String × α)} (hd : (entries.map Prod.fst).Nodup)
    (h : entries[place]? = some (key, value)) (start : Nat) :
    slotFrom key start entries = some (start + place, value) := by
  induction entries generalizing start place with
  | nil => cases h
  | cons entry rest ih =>
    obtain ⟨name, other⟩ := entry
    obtain ⟨hnew, hd⟩ := List.nodup_cons.mp hd
    unfold slotFrom
    cases place with
    | zero =>
      obtain ⟨rfl, rfl⟩ := Prod.mk.inj (Option.some.inj h)
      exact if_pos rfl
    | succ place =>
      have h : rest[place]? = some (key, value) := h
      have hmem : key ∈ rest.map Prod.fst := List.mem_map.mpr ⟨_, List.mem_of_getElem? h, rfl⟩
      have hname : name ≠ key := fun hsame => hnew (hsame ▸ hmem)
      rw [if_neg hname, ih hd h, Nat.add_assoc, Nat.add_comm 1]

/-- **The slot of a name** is the place of its entry. -/
theorem slot?_eq_some_iff :
    m.slot? key = some (place, value) ↔ m.entries[place]? = some (key, value) := by
  constructor
  · intro h
    obtain ⟨i, hplace, -, hget, -⟩ := findIdx?_of_slotFrom m.distinct h
    rwa [hplace, Nat.zero_add]
  · intro h
    rw [slot?, slotFrom_of_getElem? m.distinct h, Nat.zero_add]

theorem lt_size_of_slot? (h : m.slot? key = some (place, value)) : place < m.size :=
  (List.getElem?_eq_some_iff.mp (slot?_eq_some_iff.mp h)).1

theorem exists_slot?_of_mem (h : key ∈ m) : ∃ place value, m.slot? key = some (place, value) := by
  obtain ⟨⟨name, value⟩, hentry, rfl⟩ := List.mem_map.mp h
  obtain ⟨place, hplace⟩ := List.getElem?_of_mem hentry
  exact ⟨place, value, slot?_eq_some_iff.mpr hplace⟩

theorem entries_erase (h : m.slot? key = some (place, value)) :
    (m.erase key).entries = m.entries.eraseIdx place := by
  obtain ⟨i, hplace, -, -, hfilter⟩ := findIdx?_of_slotFrom m.distinct h
  rw [hplace, Nat.zero_add]
  exact hfilter

theorem entries_insertAt {fresh : key ∉ m} (h : place ≤ m.size) :
    (m.insertAt place key value fresh).entries = m.entries.insertIdx place (key, value) :=
  (insertIdx_eq_take_drop h _).symm

/-- The entry of a name is exchanged in its place. -/
theorem entries_replace (h : m.entries[place]? = some (key, old)) :
    (m.replace key value).entries = m.entries.set place (key, value) := by
  have hplace : place < m.entries.length := (List.getElem?_eq_some_iff.mp h).1
  refine List.ext_getElem? fun i => ?_
  rw [replace, List.getElem?_map, List.getElem?_set]
  by_cases hi : place = i
  · subst hi
    rw [if_pos rfl, if_pos hplace, h]
    exact congrArg some (if_pos rfl)
  · rw [if_neg hi]
    cases hget : m.entries[i]? with
    | none => rfl
    | some entry =>
      have hname : entry.1 ≠ key := by
        rintro rfl
        refine hi ((List.getElem?_inj (by rwa [List.length_map]) m.distinct).mp ?_)
        rw [List.getElem?_map, List.getElem?_map, h, hget]
        rfl
      exact congrArg some (if_neg hname)

theorem not_mem_erase : key ∉ m.erase key := by
  rw [mem_iff_mem_keys, keys_erase]
  simp

theorem size_erase (h : m.slot? key = some (place, value)) : (m.erase key).size = m.size - 1 := by
  rw [size, entries_erase h, List.length_eraseIdx_of_lt (lt_size_of_slot? h), size]

theorem le_size_erase (h : m.slot? key = some (place, value)) : place ≤ (m.erase key).size := by
  have hplace := lt_size_of_slot? h
  rw [size_erase h]
  omega

/-- **A field that is put back where it stood** was never away. -/
theorem insertAt_erase (h : m.slot? key = some (place, value)) :
    (m.erase key).insertAt place key value not_mem_erase = m := by
  apply OrderedMap.ext
  obtain ⟨hplace, hget⟩ := List.getElem?_eq_some_iff.mp (slot?_eq_some_iff.mp h)
  rw [entries_insertAt (le_size_erase h), entries_erase h, ← hget,
    List.insertIdx_eraseIdx_getElem hplace]

theorem mem_insertAt_self {fresh : key ∉ m} : key ∈ m.insertAt place key value fresh := by
  rw [mem_iff_mem_keys, keys_insertAt]
  simp

theorem slot?_insertAt {fresh : key ∉ m} (h : place ≤ m.size) :
    (m.insertAt place key value fresh).slot? key = some (place, value) := by
  rw [slot?_eq_some_iff, entries_insertAt h, List.getElem?_insertIdx_self]
  exact if_pos h

theorem replace_replace (first second : α) :
    (m.replace key first).replace key second = m.replace key second := by
  apply OrderedMap.ext
  simp only [replace, List.map_map]
  refine List.map_congr_left fun entry _ => ?_
  by_cases hname : entry.1 = key <;> simp [replaceEntry, hname]

/-- **A value that is put back in its place** was never exchanged. -/
theorem replace_get? (h : m.get? key = some value) : m.replace key value = m := by
  apply OrderedMap.ext
  refine (List.map_congr_left fun entry hentry => ?_).trans (List.map_id _)
  by_cases hname : entry.1 = key
  · have hget := get?_eq_some_iff.mpr hentry
    rw [hname, h] at hget
    rw [replaceEntry, if_pos hname, Option.some.inj hget]
    rfl
  · exact if_neg hname

end OrderedMap

/-! ## Changes of a layout -/

namespace FieldChange

theorem place_of_fresh {α : Type} {site : FieldSite} {fields : OrderedMap α} {field : String}
    {index : Nat} {value : α} (hfresh : field ∉ fields) (hle : index ≤ fields.size) :
    place site fields field index value = .ok (fields.insertAt index field value hfresh) := by
  rw [place_eq, dif_neg hfresh, if_neg (Nat.not_lt.mpr hle)]

/-- **What a change does to the list of fields.** A move takes a field out and puts it in at the
requested place, or at the one where it was; an insertion puts one in at the requested place, or at
the end. All other fields stay in their order. -/
def Places (before after : Layout) : FieldChange TypeRef CodeRef → Prop
  | .move source target index => ∃ slot type, before.entries[slot]? = some (source, type) ∧
      after.entries[index.getD slot]? = some (target, type) ∧
        after.entries.eraseIdx (index.getD slot) = before.entries.eraseIdx slot
  | .insert field type _ _ index => after.entries[index.getD before.size]? = some (field, type) ∧
      after.entries.eraseIdx (index.getD before.size) = before.entries
  | .remove field => ∃ slot type, before.entries[slot]? = some (field, type) ∧
      after.entries = before.entries.eraseIdx slot
  | .convert field type _ _ => ∃ slot old, before.entries[slot]? = some (field, old) ∧
      after.entries = before.entries.set slot (field, type)

/-- **The change that takes a change of a layout back.** The code that it calls may be any; it
reads nothing. -/
def undo? (code : CodeRef) (before : Layout) :
    FieldChange TypeRef CodeRef → Option (FieldChange TypeRef CodeRef)
  | .move source target _ =>
    (before.slot? source).map fun found => .move target source (some found.1)
  | .insert field .. => some (.remove field)
  | .remove field =>
    (before.slot? field).map fun found => .insert field found.2 code [] (some found.1)
  | .convert field .. => (before.get? field).map fun type => .convert field type code []

end FieldChange

namespace Layout

open OrderedMap

variable {site : FieldSite} {change : FieldChange TypeRef CodeRef} {before after : Layout}

/-- **A field comes to the place that is asked for**, and all others keep their order. -/
theorem places_of_apply (h : before.apply site change = .ok after) :
    change.Places before after := by
  rw [Layout.apply_eq] at h
  cases change with
  | move source target index =>
    rw [FieldChange.apply_move] at h
    split at h
    · cases h
    · rename_i slot type hslot
      obtain ⟨hfresh, hle, rfl⟩ := FieldChange.place_eq_ok h
      refine ⟨slot, type, slot?_eq_some_iff.mp hslot,
        slot?_eq_some_iff.mp (slot?_insertAt hle), ?_⟩
      rw [entries_insertAt hle, List.eraseIdx_insertIdx_self, entries_erase hslot]
  | insert field type code context index =>
    obtain ⟨hfresh, hle, rfl⟩ := FieldChange.place_eq_ok h
    refine ⟨slot?_eq_some_iff.mp (slot?_insertAt hle), ?_⟩
    rw [entries_insertAt hle, List.eraseIdx_insertIdx_self]
  | remove field =>
    rw [FieldChange.apply_remove] at h
    split at h
    · rename_i hmem
      obtain rfl := Except.ok.inj h
      obtain ⟨slot, type, hslot⟩ := exists_slot?_of_mem hmem
      exact ⟨slot, type, slot?_eq_some_iff.mp hslot, entries_erase hslot⟩
    · cases h
  | convert field type code context =>
    rw [FieldChange.apply_convert] at h
    split at h
    · cases h
    · rename_i old hget
      obtain rfl := Except.ok.inj h
      obtain ⟨slot, hslot⟩ := List.getElem?_of_mem (get?_eq_some_iff.mp hget)
      exact ⟨slot, old, hslot, entries_replace hslot⟩

/-- **A change of a layout is taken back.** What takes it back reads nothing, and brings in no
other types than the layout had. -/
theorem apply_undo (h : before.apply site change = .ok after) (code : CodeRef) :
    ∃ undo, change.undo? code before = some undo ∧ undo.context = [] ∧
      (∀ ref, undo.introduced? = some ref → ref ∈ before.values) ∧
        ∀ site, after.apply site undo = .ok before := by
  rw [Layout.apply_eq] at h
  cases change with
  | move source target index =>
    rw [FieldChange.apply_move] at h
    split at h
    · cases h
    · rename_i slot type hslot
      obtain ⟨hfresh, hle, rfl⟩ := FieldChange.place_eq_ok h
      refine ⟨.move target source (some slot), by rw [FieldChange.undo?, hslot]; rfl, rfl,
        fun ref href => ?_, fun site => ?_⟩
      · cases href
      · rw [Layout.apply_eq, FieldChange.apply_move, slot?_insertAt hle]
        dsimp only [Option.getD_some]
        rw [erase_insertAt, FieldChange.place_of_fresh not_mem_erase (le_size_erase hslot),
          insertAt_erase hslot]
  | insert field type code' context index =>
    obtain ⟨hfresh, hle, rfl⟩ := FieldChange.place_eq_ok h
    refine ⟨.remove field, rfl, rfl, fun ref href => ?_, fun site => ?_⟩
    · cases href
    · rw [Layout.apply_eq, FieldChange.apply_remove, if_pos mem_insertAt_self, erase_insertAt]
  | remove field =>
    rw [FieldChange.apply_remove] at h
    split at h
    · rename_i hmem
      obtain rfl := Except.ok.inj h
      obtain ⟨slot, type, hslot⟩ := exists_slot?_of_mem hmem
      refine ⟨.insert field type code [] (some slot), by rw [FieldChange.undo?, hslot]; rfl, rfl,
        fun ref href => ?_, fun site => ?_⟩
      · obtain rfl := Option.some.inj href
        exact mem_values_of_slot? hslot
      · rw [Layout.apply_eq, FieldChange.apply_insert, Option.getD_some,
          FieldChange.place_of_fresh not_mem_erase (le_size_erase hslot), insertAt_erase hslot]
    · cases h
  | convert field type code' context =>
    rw [FieldChange.apply_convert] at h
    split at h
    · cases h
    · rename_i old hget
      obtain rfl := Except.ok.inj h
      refine ⟨.convert field old code [], by rw [FieldChange.undo?, hget]; rfl, rfl,
        fun ref href => ?_, fun site => ?_⟩
      · obtain rfl := Option.some.inj href
        exact mem_values_of_get? hget
      · rw [Layout.apply_eq, FieldChange.apply_convert, get?_replace, if_pos rfl, hget]
        dsimp only [Option.map_some]
        rw [replace_replace, replace_get? hget]

end Layout

/-! ## Transformations -/

namespace Layouts

variable {catalog : Catalog} {version : String} {before after : Layouts} {step : Step}
  {changed : NameSet}

theorem checkStep_of_known (hbase : catalog.category? step.type = some .base)
    (hknown : ∀ ref, step.change.introduced? = some ref → catalog.Knows ref) :
    checkStep catalog version step = .ok () := by
  rw [checkStep, hbase]
  dsimp only
  split
  · rfl
  · exact if_pos (hknown _ ‹_›)

theorem checkContext_of_nil {layout : Layout} (hget : before.get? step.type = some layout)
    (hcontext : step.change.context = []) : checkContext before version step = .ok () := by
  rw [checkContext, hget, hcontext]
  rfl

theorem replay_singleton_eq_ok_iff :
    replay catalog version before [step] = .ok (after, changed) ↔
      checkStep catalog version step = .ok () ∧ checkContext before version step = .ok () ∧
        applyStep version step before = .ok after ∧ changed = NameSet.add ∅ step.type := by
  constructor
  · intro h
    obtain ⟨⟨⟩, hstep, h⟩ := bind_eq_ok.mp h
    obtain ⟨⟨⟩, hcontext, h⟩ := bind_eq_ok.mp h
    obtain ⟨middle, happly, h⟩ := bind_eq_ok.mp h
    obtain ⟨rfl, rfl⟩ := Prod.mk.inj (Except.ok.inj h)
    exact ⟨hstep, hcontext, happly, rfl⟩
  · rintro ⟨hstep, hcontext, happly, rfl⟩
    exact bind_eq_ok.mpr ⟨(), hstep, bind_eq_ok.mpr ⟨(), hcontext,
      bind_eq_ok.mpr ⟨after, happly, rfl⟩⟩⟩

/-- **A transformation is taken back** by the one that undoes its change: in any version and with
any code, it leads to the layouts that there were before, with the order of their fields. And the
transformation itself puts its field where it should, and leaves all others in their order. -/
theorem replay_undo (hknown : before.Known catalog)
    (h : replay catalog version before [step] = .ok (after, changed)) :
    ∃ old new, before.get? step.type = some old ∧ after.get? step.type = some new ∧
      step.change.Places old new ∧
        ∀ version' code, ∃ undo, step.change.undo? code old = some undo ∧ undo.context = [] ∧
          replay catalog version' after [⟨step.type, undo⟩] = .ok (before, changed) := by
  obtain ⟨hstep, -, happly, rfl⟩ := replay_singleton_eq_ok_iff.mp h
  obtain ⟨old, new, hget, hchange, rfl⟩ := applyStep_eq_ok happly
  have hget' : (before.replace step.type new).get? step.type = some new := by
    rw [OrderedMap.get?_replace, if_pos rfl, hget]
    rfl
  refine ⟨old, new, hget, hget', Layout.places_of_apply hchange, fun version' code => ?_⟩
  obtain ⟨undo, hundo, hcontext, hintro, hback⟩ := Layout.apply_undo hchange code
  refine ⟨undo, hundo, hcontext, replay_singleton_eq_ok_iff.mpr ⟨?_, ?_, ?_, rfl⟩⟩
  · exact checkStep_of_known (checkStep_eq_ok hstep).1 fun ref href =>
      hknown old (OrderedMap.mem_values_of_get? hget) ref (hintro ref href)
  · exact checkContext_of_nil hget' hcontext
  · rw [applyStep, hget']
    refine bind_eq_ok.mpr ⟨old, hback _, ?_⟩
    exact congrArg Except.ok
      ((OrderedMap.replace_replace new old).trans (OrderedMap.replace_get? hget))

/-- In the sample a field is moved to the end under its own name, and moved back to the front. -/
theorem replay_undo_revised : ∃ replayed before after version undo,
    Config.revised.replay = .ok replayed ∧ replayed.history.stages[1]? = some before ∧
      replayed.history.stages[2]? = some after ∧
      before.layouts.Known replayed.definition.catalog ∧
      replay replayed.definition.catalog version before.layouts [.moving] =
        .ok (after.layouts, after.changed) ∧
      replay replayed.definition.catalog version after.layouts [⟨"B", undo⟩] =
        .ok (before.layouts, after.changed) := by
  obtain ⟨replayed, -, second, third, hreplay, -, -, hbefore, hafter, -, hthird⟩ :=
    Config.exists_replay_revised
  have hr := Replayed.sound_of_replay hreplay
  obtain ⟨version, before, -, hsame, hmoved, hsteps⟩ := hr.exists_replay hafter
  obtain rfl := Option.some.inj (hbefore.symm.trans hsame)
  rw [← hsteps, hthird] at hmoved
  have hknown := History.known_layouts hr.ofChain_eq_ok hr.definition hbefore
  obtain ⟨old, new, -, -, -, hundo⟩ := replay_undo hknown hmoved
  obtain ⟨undo, -, -, hback⟩ := hundo version.name (.construct "c.X")
  exact ⟨replayed, second, third, version.name, undo, hreplay, hbefore, hafter, hknown, hmoved,
    hback⟩

end Layouts

end SchemaEvolution

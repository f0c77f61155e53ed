import SchemaEvolution.OrderedMap
import SchemaEvolution.SortedMap
import SchemaEvolution.Proofs.Failure

/-!
# Looking up names

A look-up in a map sees exactly the entries of the map, and each operation changes what is under
the names that it is about and nothing else.

## Main results

* `OrderedMap.get?_eq_some_iff`, `SortedMap.get?_eq_some_iff`: a look-up finds an entry
* `OrderedMap.get?_map`, `OrderedMap.get?_replace`, `OrderedMap.get?_insertAt`,
  `OrderedMap.get?_insert`, `SortedMap.get?_insertNew`, `SortedMap.get?_map`: look-ups after an
  operation
* `OrderedMap.eq_of_get?`: an ordered map is determined by its names and its look-ups
* `SortedMap.eq_of_get?`, `NameSet.eq_of_mem`: a sorted map is determined by its look-ups
* `OrderedMap.entries_ofList`: a list without repeated names is its own map
* `OrderedMap.traverse_eq_ok_iff`, `OrderedMap.exists_traverse_iff`,
  `OrderedMap.traverse_insertAt_eq_ok_iff`: a failing function applied to all values
-/

namespace SchemaEvolution

universe u v w

variable {α : Type u} {β : Type v} {γ : Type w}

/-! ## Entries with distinct names -/

theorem lookup_eq_some_iff {entries : List (String × α)} (hd : (entries.map Prod.fst).Nodup)
    {key : String} {value : α} :
    entries.lookup key = some value ↔ (key, value) ∈ entries := by
  induction entries with
  | nil => simp
  | cons entry rest ih =>
    obtain ⟨name, first⟩ := entry
    obtain ⟨hnew, hrest⟩ := List.nodup_cons.mp hd
    by_cases hk : key = name
    · subst hk
      have hnot : (key, value) ∉ rest := fun h => hnew (List.mem_map.mpr ⟨_, h, rfl⟩)
      simp [hnot, eq_comm]
    · simp [lookup_cons_eq, hk, ih hrest]

theorem lookup_isSome_iff {entries : List (String × α)} {key : String} :
    (entries.lookup key).isSome ↔ key ∈ entries.map Prod.fst := by
  rw [List.lookup_isSome_iff]
  constructor
  · rintro ⟨entry, hmem, hkey⟩
    exact List.mem_map.mpr ⟨entry, hmem, (eq_of_beq hkey).symm⟩
  · intro h
    obtain ⟨entry, hmem, rfl⟩ := List.mem_map.mp h
    exact ⟨entry, hmem, beq_self_eq_true _⟩

theorem lookup_map (f : String → α → β) (entries : List (String × α)) (key : String) :
    (entries.map fun entry => (entry.1, f entry.1 entry.2)).lookup key =
      (entries.lookup key).map (f key) := by
  induction entries with
  | nil => rfl
  | cons entry rest ih =>
    obtain ⟨name, first⟩ := entry
    by_cases hk : key = name
    · subst hk
      simp
    · simp [lookup_cons_eq, hk, ih]

/-! ## Ordered maps -/

namespace OrderedMap

variable {m : OrderedMap α} {key name : String} {value : α}

theorem get?_eq_some_iff : m.get? key = some value ↔ (key, value) ∈ m.entries :=
  lookup_eq_some_iff m.distinct

theorem get?_isSome_iff : (m.get? key).isSome ↔ key ∈ m := lookup_isSome_iff

theorem exists_get?_of_mem (h : key ∈ m) : ∃ value, m.get? key = some value :=
  Option.isSome_iff_exists.mp (get?_isSome_iff.mpr h)

theorem mem_of_get? (h : m.get? key = some value) : key ∈ m :=
  get?_isSome_iff.mp (by rw [h]; rfl)

theorem mem_values_of_get? (h : m.get? key = some value) : value ∈ m.values :=
  List.mem_map_of_mem (f := Prod.snd) (get?_eq_some_iff.mp h)

@[simp] theorem get?_map (f : α → β) : (m.map f).get? key = (m.get? key).map f :=
  lookup_map (fun _ => f) m.entries key

theorem mem_map_iff {f : α → β} : key ∈ m.map f ↔ key ∈ m := by
  rw [mem_iff_mem_keys, keys_map, ← mem_iff_mem_keys]

theorem get?_replace :
    (m.replace key value).get? name =
      if name = key then (m.get? name).map fun _ => value else m.get? name := by
  have hentries : (m.replace key value).entries =
      m.entries.map fun entry => (entry.1, if entry.1 = key then value else entry.2) :=
    List.map_congr_left fun entry _ => by unfold replaceEntry; split <;> rfl
  unfold get?
  rw [hentries, lookup_map fun other old => if other = key then value else old]
  split <;> simp

theorem map_some_entries (m : OrderedMap α) :
    m.entries.map some = m.keys.map fun key => (m.get? key).map (Prod.mk key) := by
  rw [keys, List.map_map]
  refine List.map_congr_left fun entry hentry => ?_
  rw [Function.comp_apply, get?_eq_some_iff.mpr hentry]
  rfl

/-- **Equal names in one order with equal contents are equal maps.** -/
theorem eq_of_get? {m' : OrderedMap α} (hkeys : m.keys = m'.keys)
    (h : ∀ key ∈ m, m.get? key = m'.get? key) : m = m' := by
  have hentries : m.entries.map some = m'.entries.map some := by
    rw [map_some_entries, map_some_entries, ← hkeys]
    exact List.map_congr_left fun key hkey => by rw [h key hkey]
  exact OrderedMap.ext (List.map_injective_iff.mpr (Option.some_injective _) hentries)

theorem erase_insertAt {place : Nat} (fresh : key ∉ m) :
    (m.insertAt place key value fresh).erase key = m := by
  have hother : ∀ entry ∈ m.entries, (entry.1 != key) = true := by
    intro entry hentry
    rw [bne_iff_ne]
    rintro rfl
    exact fresh (List.mem_map_of_mem hentry)
  apply OrderedMap.ext
  simp only [erase, insertAt, List.filter_append]
  rw [List.filter_cons_of_neg (by simp),
    List.filter_eq_self.mpr fun entry hentry => hother entry (List.mem_of_mem_take hentry),
    List.filter_eq_self.mpr fun entry hentry => hother entry (List.mem_of_mem_drop hentry),
    List.take_append_drop]

theorem mem_entries_insertAt_iff {place : Nat} (fresh : key ∉ m) {entry : String × α} :
    entry ∈ (m.insertAt place key value fresh).entries ↔
      entry = (key, value) ∨ entry ∈ m.entries := by
  rw [insertAt, List.perm_middle.mem_iff, List.mem_cons, List.take_append_drop]

theorem get?_insertAt {place : Nat} (fresh : key ∉ m) :
    (m.insertAt place key value fresh).get? name =
      if name = key then some value else m.get? name := by
  ext found
  rw [get?_eq_some_iff, mem_entries_insertAt_iff]
  by_cases hname : name = key
  · subst hname
    have hnot : (name, found) ∉ m.entries := fun h =>
      fresh (List.mem_map_of_mem (f := Prod.fst) h)
    simp [hnot, eq_comm]
  · simp [hname, get?_eq_some_iff]

theorem get?_insert :
    (m.insert key value).get? name = if name = key then some value else m.get? name := by
  unfold insert
  split
  · rename_i hkey
    rw [get?_replace]
    by_cases hname : name = key
    · subst hname
      obtain ⟨old, hold⟩ := exists_get?_of_mem hkey
      simp [hold]
    · simp [hname]
  · rw [get?_insertAt]

theorem get?_eq_none (h : key ∉ m) : m.get? key = none :=
  Option.eq_none_iff_forall_not_mem.mpr fun _ hvalue => h (mem_of_get? hvalue)

theorem get?_erase : (m.erase key).get? name = if name = key then none else m.get? name := by
  ext found
  by_cases hname : name = key <;> simp [get?_eq_some_iff, erase, hname]

theorem size_erase_of_mem (h : key ∈ m) : (m.erase key).size + 1 = m.size := by
  have hkeys : (m.erase key).keys = m.keys.erase key := by
    rw [keys_erase, keys, List.Nodup.erase_eq_filter m.distinct]
  have hlength := congrArg List.length hkeys
  have hpos : 0 < m.keys.length := List.length_pos_of_mem h
  rw [List.length_erase_of_mem h] at hlength
  simp only [keys, List.length_map] at hlength hpos
  rw [size, size, hlength]
  omega

theorem size_insertAt {place : Nat} (fresh : key ∉ m) :
    (m.insertAt place key value fresh).size = m.size + 1 := by
  rw [size, insertAt, List.perm_middle.length_eq, List.length_cons, List.take_append_drop, size]

theorem size_replace : (m.replace key value).size = m.size := by
  simp [size, replace]

/-! ### Values after an operation -/

theorem mem_of_slotFrom {entries : List (String × α)} {start place : Nat}
    (h : slotFrom key start entries = some (place, value)) : (key, value) ∈ entries := by
  fun_induction slotFrom key start entries with
  | case1 => cases h
  | case2 start other rest =>
    obtain ⟨-, rfl⟩ := Prod.mk.inj (Option.some.inj h)
    exact List.mem_cons_self
  | case3 start name other rest _ ih => exact List.mem_cons_of_mem _ (ih h)

theorem mem_values_of_slot? {place : Nat} (h : m.slot? key = some (place, value)) :
    value ∈ m.values :=
  List.mem_map_of_mem (f := Prod.snd) (mem_of_slotFrom h)

theorem mem_values_of_erase {other : α} (h : other ∈ (m.erase key).values) : other ∈ m.values :=
  (List.filter_sublist.map Prod.snd).subset h

theorem mem_values_of_insertAt {place : Nat} {fresh : key ∉ m} {other : α}
    (h : other ∈ (m.insertAt place key value fresh).values) : other = value ∨ other ∈ m.values := by
  simp only [values, insertAt, List.map_append, List.map_cons, List.mem_append, List.mem_cons] at h
  rcases h with h | h | h
  · exact .inr (((List.take_sublist place m.entries).map Prod.snd).subset h)
  · exact .inl h
  · exact .inr (((List.drop_sublist place m.entries).map Prod.snd).subset h)

theorem mem_values_of_replace {other : α} (h : other ∈ (m.replace key value).values) :
    other = value ∨ other ∈ m.values := by
  simp only [values, replace, List.map_map, List.mem_map] at h
  obtain ⟨entry, hentry, rfl⟩ := h
  by_cases hkey : entry.1 = key
  · simp [replaceEntry, hkey]
  · rw [Function.comp_apply, replaceEntry, if_neg hkey]
    exact .inr (List.mem_map_of_mem hentry)

/-! ### Lists as maps -/

theorem keys_ofList_prefix : ∀ (entries : List (String × α)) (m : OrderedMap α),
    ((m.entries ++ entries).map Prod.fst).Nodup →
      (entries.foldl (fun map entry => map.insert entry.1 entry.2) m).entries =
        m.entries ++ entries
  | [], m, _ => (List.append_nil _).symm
  | entry :: rest, m, hd => by
    have hfresh : entry.1 ∉ m := by
      intro hmem
      rw [List.map_append, List.map_cons, List.nodup_middle, List.nodup_cons] at hd
      exact hd.1 (List.mem_append_left _ hmem)
    have hstep : (m.insert entry.1 entry.2).entries = m.entries ++ [entry] := by
      rw [insert, dif_neg hfresh]
      simp [insertAt, size]
    rw [List.foldl_cons, keys_ofList_prefix rest _ (by simpa [hstep] using hd), hstep]
    simp

/-- A list that repeats no name is the list of entries of its map. -/
theorem entries_ofList {entries : List (String × α)} (hd : (entries.map Prod.fst).Nodup) :
    (ofList entries).entries = entries :=
  keys_ofList_prefix entries empty hd

theorem agrees_self [DecidableEq α] (m : OrderedMap α) : m.agrees m = true := by
  have hget : ∀ entry ∈ m.entries, m.get? entry.1 = some entry.2 :=
    fun entry h => get?_eq_some_iff.mpr h
  simp only [agrees, BEq.rfl, Bool.true_and, List.all_eq_true]
  intro entry h
  rw [hget entry h, BEq.rfl]

/-! ### A failing function on all values -/

variable {ε : Type w} {f : String → α → Except ε β}

theorem map_traverseEntries (entries : List (String × α)) :
    (traverseEntries f entries).map Subtype.val =
      entries.mapM fun entry => (f entry.1 entry.2).map (Prod.mk entry.1) := by
  induction entries with
  | nil => rfl
  | cons entry rest ih =>
    obtain ⟨name, value⟩ := entry
    rw [List.mapM_cons, ← ih, traverseEntries]
    cases f name value with
    | error e => rfl
    | ok first => cases traverseEntries f rest <;> rfl

theorem map_traverse (m : OrderedMap α) :
    (m.traverse f).map entries =
      m.entries.mapM fun entry => (f entry.1 entry.2).map (Prod.mk entry.1) := by
  rw [← map_traverseEntries]
  unfold traverse
  cases traverseEntries f m.entries <;> rfl

theorem traverse_eq_ok_iff {out : OrderedMap β} :
    m.traverse f = .ok out ↔
      List.Forall₂ (fun a b => a.1 = b.1 ∧ f a.1 a.2 = .ok b.2) m.entries out.entries := by
  have hmap : m.traverse f = .ok out ↔ (m.traverse f).map entries = .ok out.entries := by
    rw [map_eq_ok]
    exact ⟨fun h => ⟨out, h, rfl⟩, fun ⟨out', h, he⟩ => h.trans (congrArg _ (OrderedMap.ext he))⟩
  have hentry : ∀ (a : String × α) (b : String × β),
      (f a.1 a.2).map (Prod.mk a.1) = .ok b ↔ a.1 = b.1 ∧ f a.1 a.2 = .ok b.2 := by
    rintro ⟨name, value⟩ ⟨name', value'⟩
    rw [map_eq_ok]
    constructor
    · rintro ⟨out, h, he⟩
      obtain ⟨rfl, rfl⟩ := Prod.mk.inj he
      exact ⟨rfl, h⟩
    · rintro ⟨rfl, h⟩
      exact ⟨value', h, rfl⟩
  rw [hmap, map_traverse, mapM_eq_ok_iff]
  simp only [hentry]

/-- A map fails with the failure of one of its values. -/
theorem exists_of_traverse_eq_error {e : ε} (h : m.traverse f = .error e) :
    ∃ entry ∈ m.entries, f entry.1 entry.2 = .error e := by
  have hmap : (m.traverse f).map entries = .error e := map_eq_error.mpr h
  rw [map_traverse] at hmap
  obtain ⟨entry, hentry, hfailed⟩ := exists_of_mapM_eq_error hmap
  exact ⟨entry, hentry, map_eq_error.mp hfailed⟩

/-- A function succeeds on a map exactly if it succeeds on every value. -/
theorem exists_traverse_iff : (∃ out, m.traverse f = .ok out) ↔
    ∀ key value, m.get? key = some value → ∃ value', f key value = .ok value' := by
  constructor
  · rintro ⟨out, hout⟩ key value hget
    obtain ⟨entry, -, -, hvalue⟩ :=
      exists_right_of_forall₂ (traverse_eq_ok_iff.mp hout) (get?_eq_some_iff.mp hget)
    exact ⟨entry.2, hvalue⟩
  · intro h
    obtain ⟨entries, hentries⟩ : ∃ entries : List (String × β),
        List.Forall₂ (fun a b => a.1 = b.1 ∧ f a.1 a.2 = .ok b.2) m.entries entries := by
      refine exists_forall₂ fun entry hentry => ?_
      obtain ⟨value', hvalue⟩ := h entry.1 entry.2 (get?_eq_some_iff.mpr hentry)
      exact ⟨(entry.1, value'), rfl, hvalue⟩
    have hnames : m.entries.map Prod.fst = entries.map Prod.fst :=
      map_eq_map_of_forall₂ hentries fun _ _ hentry => hentry.1
    exact ⟨⟨entries, hnames ▸ m.distinct⟩, traverse_eq_ok_iff.mpr hentries⟩

theorem keys_of_traverse {out : OrderedMap β} (h : m.traverse f = .ok out) :
    out.keys = m.keys :=
  (map_eq_map_of_forall₂ (traverse_eq_ok_iff.mp h) fun _ _ hab => hab.1).symm

/-- What is under a name afterwards is what the function made of the value under it. -/
theorem get?_traverse_iff {out : OrderedMap β} (h : m.traverse f = .ok out) {value' : β} :
    out.get? key = some value' ↔ ∃ value, m.get? key = some value ∧ f key value = .ok value' := by
  have hall := traverse_eq_ok_iff.mp h
  constructor
  · intro hget
    obtain ⟨⟨name, value⟩, hmem, rfl, hf⟩ :=
      exists_left_of_forall₂ hall (get?_eq_some_iff.mp hget)
    exact ⟨value, get?_eq_some_iff.mpr hmem, hf⟩
  · rintro ⟨value, hget, hf⟩
    obtain ⟨⟨name, other⟩, hmem, rfl, hother⟩ :=
      exists_right_of_forall₂ hall (get?_eq_some_iff.mp hget)
    obtain rfl := Except.ok.inj (hother.symm.trans hf)
    exact get?_eq_some_iff.mpr hmem

theorem get?_of_traverse {out : OrderedMap β} (h : m.traverse f = .ok out) {value' : β}
    (hget : out.get? key = some value') :
    ∃ value, m.get? key = some value ∧ f key value = .ok value' :=
  (get?_traverse_iff h).mp hget

/-- Values that are changed first yield changed values. -/
theorem traverse_map_eq_ok {α' : Type u} {β' : Type v} {f' : String → α' → Except ε β'}
    {g : α → α'} {g' : β → β'}
    (hf : ∀ {key value out}, f key value = .ok out → f' key (g value) = .ok (g' out))
    {out : OrderedMap β} (h : m.traverse f = .ok out) :
    (m.map g).traverse f' = .ok (out.map g') := by
  refine traverse_eq_ok_iff.mpr (List.rel_map ?_ (traverse_eq_ok_iff.mp h))
  intro entry entry' hentry
  exact ⟨hentry.1, hf hentry.2⟩

/-- **A map with one more entry** yields what the map yields, with one more entry. -/
theorem traverse_insertAt_eq_ok_iff {place : Nat} {fresh : key ∉ m} {out' : OrderedMap β} :
    (m.insertAt place key value fresh).traverse f = .ok out' ↔
      ∃ (out : OrderedMap β) (hfresh : key ∉ out) (value' : β), m.traverse f = .ok out ∧
        f key value = .ok value' ∧ out' = out.insertAt place key value' hfresh := by
  have hinserted : ∀ {out : OrderedMap β} {hfresh : key ∉ out} {value' : β},
      m.traverse f = .ok out → f key value = .ok value' →
        (m.insertAt place key value fresh).traverse f =
          .ok (out.insertAt place key value' hfresh) := by
    intro out hfresh value' hout hvalue
    have hall := traverse_eq_ok_iff.mp hout
    exact traverse_eq_ok_iff.mpr (List.rel_append (List.forall₂_take place hall)
      (.cons ⟨rfl, hvalue⟩ (List.forall₂_drop place hall)))
  constructor
  · intro h
    have hall := traverse_eq_ok_iff.mp h
    obtain ⟨entry, -, hname, hvalue⟩ :=
      exists_right_of_forall₂ hall ((mem_entries_insertAt_iff fresh).mpr (.inl rfl))
    have herased : m.traverse f = .ok (out'.erase key) := by
      have herase : (m.insertAt place key value fresh).erase key = m := erase_insertAt fresh
      have hfilter := List.rel_filter (p := fun entry => entry.1 != key)
        (q := fun entry => entry.1 != key) (fun _ _ hab => by simp [hab.1]) hall
      rw [← herase]
      exact traverse_eq_ok_iff.mpr hfilter
    have hfresh : key ∉ out'.erase key := by
      rw [mem_iff_mem_keys, keys_of_traverse herased]
      exact fresh
    exact ⟨_, hfresh, entry.2, herased, hvalue,
      Except.ok.inj (h.symm.trans (hinserted herased hvalue))⟩
  · rintro ⟨out, hfresh, value', hout, hvalue, rfl⟩
    exact hinserted hout hvalue

end OrderedMap

/-! ## Sorted maps -/

namespace SortedMap

variable {m : SortedMap α} {key name : String} {value : α}

theorem get?_eq_some_iff : m.get? key = some value ↔ (key, value) ∈ m.entries :=
  lookup_eq_some_iff m.distinct

theorem get?_isSome_iff : (m.get? key).isSome ↔ key ∈ m := lookup_isSome_iff

theorem exists_get?_of_mem (h : key ∈ m) : ∃ value, m.get? key = some value :=
  Option.isSome_iff_exists.mp (get?_isSome_iff.mpr h)

theorem eq_empty (h : ∀ key, key ∉ m) : m = ∅ := by
  apply SortedMap.ext
  cases hentries : m.entries with
  | nil => rfl
  | cons entry rest =>
    have hmem : entry ∈ m.entries := by rw [hentries]; exact List.mem_cons_self
    exact absurd (List.mem_map_of_mem hmem) (h entry.1)

/-- **Equal contents are equal maps.** -/
theorem eq_of_get? {m' : SortedMap α} (h : ∀ key, m.get? key = m'.get? key) : m = m' := by
  have hentry : ∀ entry, entry ∈ m.entries ↔ entry ∈ m'.entries := by
    rintro ⟨key, value⟩
    rw [← get?_eq_some_iff, ← get?_eq_some_iff, h]
  have hperm : m.entries.Perm m'.entries :=
    (List.perm_ext_iff_of_nodup (.of_map Prod.fst m.distinct) (.of_map Prod.fst m'.distinct)).mpr
      hentry
  refine SortedMap.ext (hperm.eq_of_pairwise ?_ (List.pairwise_map.mp m.ascending)
    (List.pairwise_map.mp m'.ascending))
  intro entry other _ _ hlt hgt
  exact absurd (String.lt_trans hlt hgt) (String.lt_irrefl _)

@[simp] theorem get?_map (f : String → α → β) : (m.map f).get? key = (m.get? key).map (f key) :=
  lookup_map f m.entries key

/-- A value that is entered only if there is none leaves all others in place. -/
theorem get?_insertNew :
    (m.insertNew key value).get? name =
      if name = key ∧ key ∉ m then some value else m.get? name := by
  unfold insertNew
  by_cases hk : key ∈ m <;> simp [hk, get?_insert]

end SortedMap

theorem NameSet.eq_of_mem {set set' : NameSet} (h : ∀ name, name ∈ set ↔ name ∈ set') :
    set = set' := by
  refine SortedMap.eq_of_get? fun name => ?_
  have hsome := h name
  rw [← SortedMap.get?_isSome_iff, ← SortedMap.get?_isSome_iff] at hsome
  cases hset : set.get? name <;> cases hset' : set'.get? name <;> simp_all

end SchemaEvolution

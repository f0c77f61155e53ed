import SchemaEvolution.Command.Files
import SchemaEvolution.Proofs.Maps

/-!
# Writing a file changes no other

A path is walked part by part, from one folder to the next. Writing a text to a file puts it under
the names that its path leads to; these names end in a folder that is there already, so no folder
comes into being, and every path leads where it led before. Only what it finds is another text if
it leads to the names that were written.

## Main definitions

* `Folder.HasFolder`: the names lead to a folder
* `Folder.Reached`: what a walk can lead to
* `Folder.put`, `Place.put`: a folder, and a place in it, with a text under names

## Main results

* `FilePath.parts_eq`, `FilePath.slash_not_mem_of_mem_parts`: what the parts of a path are
* `Folder.find_put`: every path leads where it led before
* `Folder.exists_of_write?`: what writing a file does
-/

namespace SchemaEvolution

/-! ## The parts of a path -/

namespace FilePath

open String (utf8Len)

/-- Splitting goes through the text once: `l` is behind, `m` is the part so far, and `r` is
ahead. -/
theorem splitOnAux_slash (l m r : List Char) (before : List String) :
    (String.ofList (l ++ m ++ r)).splitOnAux "/" ⟨utf8Len l⟩ ⟨utf8Len l + utf8Len m⟩ 0 before =
      before.reverse ++ (r.splitOnPPrepend (· == '/') m.reverse).map String.ofList := by
  induction r generalizing l m before with
  | nil =>
    have hend : String.Pos.Raw.atEnd (String.ofList (l ++ m ++ []))
        ⟨utf8Len l + utf8Len m⟩ = true := by
      simpa using (String.atEnd_of_valid (l ++ m) []).mpr rfl
    rw [String.splitOnAux, if_pos hend, String.extract_of_valid]
    simp [List.splitOnPPrepend]
  | cons c rest ih =>
    have hend : ¬String.Pos.Raw.atEnd (String.ofList (l ++ m ++ c :: rest))
        ⟨utf8Len l + utf8Len m⟩ = true := by
      simpa using mt (String.atEnd_of_valid (l ++ m) (c :: rest)).mp (by simp)
    have hget : String.Pos.Raw.get (String.ofList (l ++ m ++ c :: rest))
        ⟨utf8Len l + utf8Len m⟩ = c := by
      simpa using String.get_of_valid (l ++ m) (c :: rest)
    have hnext : String.Pos.Raw.next (String.ofList (l ++ m ++ c :: rest))
        ⟨utf8Len l + utf8Len m⟩ = ⟨utf8Len l + utf8Len m + c.utf8Size⟩ := by
      simpa using String.next_of_valid (l ++ m) c rest
    rw [String.splitOnAux, if_neg hend, hget]
    by_cases hc : c = '/'
    · subst hc
      have hback : String.Pos.Raw.unoffsetBy ⟨utf8Len l + utf8Len m + '/'.utf8Size⟩ ⟨1⟩ =
          ⟨utf8Len l + utf8Len m⟩ := rfl
      have hone : String.Pos.Raw.next "/" 0 = ⟨1⟩ := by decide
      have hdone : String.Pos.Raw.atEnd "/" ⟨1⟩ = true := by decide
      have hpiece := String.extract_of_valid l m ('/' :: rest)
      have hlater := ih (l ++ m ++ ['/']) [] (String.ofList m :: before)
      rw [if_pos (by decide)]
      simp only [hnext, hone, hdone, if_true, hback, hpiece]
      simpa [Nat.add_assoc, List.splitOnPPrepend] using hlater
    · have hstay : String.Pos.Raw.unoffsetBy ⟨utf8Len l + utf8Len m⟩ 0 =
          ⟨utf8Len l + utf8Len m⟩ := rfl
      have hslash : String.Pos.Raw.get "/" 0 = '/' := by decide
      have hlater := ih l (m ++ [c]) before
      rw [if_neg (by simpa [hslash] using hc), hstay, hnext]
      simpa [Nat.add_assoc, List.splitOnPPrepend, hc] using hlater

/-- **The parts of a path** are what its characters spell between the slashes. -/
theorem parts_eq (path : String) : parts path = (path.toList.splitOn '/').map String.ofList := by
  have hparts := splitOnAux_slash [] [] path.toList []
  rw [List.nil_append, List.nil_append, String.ofList_toList] at hparts
  exact hparts

theorem not_of_mem_splitOnPPrepend {p : Char → Bool} {chars before part : List Char}
    (hbefore : ∀ c ∈ before, p c = false) (h : part ∈ chars.splitOnPPrepend p before) :
    ∀ c ∈ part, p c = false := by
  induction chars generalizing before with
  | nil =>
    obtain rfl := List.mem_singleton.mp h
    simpa using hbefore
  | cons c rest ih =>
    rw [List.splitOnPPrepend] at h
    split at h
    · rcases List.mem_cons.mp h with rfl | h
      · simpa using hbefore
      · exact ih (List.forall_mem_nil _) h
    · rename_i hc
      exact ih (List.forall_mem_cons.mpr ⟨by simpa using hc, hbefore⟩) h

/-- **No part of a path has a slash in it.** -/
theorem slash_not_mem_of_mem_parts {path part : String} (h : part ∈ parts path) :
    '/' ∉ part.toList := by
  rw [parts_eq] at h
  obtain ⟨chars, hchars, rfl⟩ := List.mem_map.mp h
  intro hslash
  have hnot := not_of_mem_splitOnPPrepend (List.forall_mem_nil _) hchars '/' (by simpa using hslash)
  cases hnot

end FilePath

/-! ## Walks -/

namespace Folder

variable {folder : Folder} {names other : List String} {name path text old : String} {place : Place}

/-- The names lead to a folder: the outermost one, one above the first, or one with a file in
it. -/
def HasFolder (folder : Folder) (names : List String) : Prop :=
  isOutermost names = true ∨ isAbove names = true ∨ ∃ file ∈ folder.files, names <+: file.1

/-- One more name within a folder, which leads neither up nor anywhere else. -/
def Within (folder : Folder) (names : List String) : Prop :=
  ∃ outer name, names = outer ++ [name] ∧ folder.HasFolder outer ∧ name ≠ ".." ∧ name ≠ "/"

/-- **What a walk can lead to**: a folder that is there, or what names stand for within one. -/
def Reached (folder : Folder) : Place → Prop
  | .folder names => folder.HasFolder names
  | .file names text => folder.Within names ∧ folder.placeOf names = .file names text
  | .free names => folder.Within names ∧ folder.placeOf names = .free names

theorem hasFolder_above (h : folder.HasFolder names) : folder.HasFolder (above names) := by
  unfold above
  split
  · exact h
  · rename_i houtermost
    split
    · rename_i habove
      exact .inr (.inl (by simpa [isAbove] using habove))
    · rename_i hbelow
      rcases h with h | h | ⟨file, hfile, hfront⟩
      · exact absurd h houtermost
      · exact absurd h hbelow
      · exact .inr (.inr ⟨file, hfile, (List.dropLast_prefix names).trans hfront⟩)

theorem within_append (h : folder.HasFolder names) (hup : name ≠ "..")
    (hslash : '/' ∉ name.toList) : folder.Within (names ++ [name]) := by
  refine ⟨names, name, rfl, h, hup, ?_⟩
  rintro rfl
  exact hslash (by decide)

theorem reached_placeOf (h : folder.Within names) : folder.Reached (folder.placeOf names) := by
  cases hlookup : folder.files.lookup names with
  | some text =>
    have hplace : folder.placeOf names = .file names text := by rw [placeOf, hlookup]
    rw [hplace]
    exact ⟨h, hplace⟩
  | none =>
    by_cases hany : folder.files.any (names.isPrefixOf ·.1) = true
    · have hplace : folder.placeOf names = .folder names := by
        rw [placeOf, hlookup]
        exact if_pos hany
      obtain ⟨file, hfile, hfront⟩ := List.any_eq_true.mp hany
      rw [hplace]
      exact .inr (.inr ⟨file, hfile, List.isPrefixOf_iff_prefix.mp hfront⟩)
    · have hplace : folder.placeOf names = .free names := by
        rw [placeOf, hlookup]
        exact if_neg hany
      rw [hplace]
      exact ⟨h, hplace⟩

/-- A walk goes on from a place that can be reached to another one. -/
theorem reached_enter (h : folder.Reached place) (hslash : '/' ∉ name.toList) {place' : Place}
    (henter : folder.enter place name = .ok place') : folder.Reached place' := by
  cases place with
  | file names text => cases henter
  | free names => cases henter
  | folder names =>
    unfold enter at henter
    dsimp only at henter
    split at henter
    · obtain rfl := Except.ok.inj henter
      exact h
    · split at henter
      · cases henter
      · split at henter
        · obtain rfl := Except.ok.inj henter
          exact hasFolder_above h
        · rename_i hup
          obtain rfl := Except.ok.inj henter
          exact reached_placeOf (within_append h (by simpa using hup) hslash)

theorem reached_foldlM {parts : List String} (hparts : ∀ part ∈ parts, '/' ∉ part.toList)
    (h : folder.Reached place) {place' : Place}
    (hwalk : parts.foldlM folder.enter place = .ok place') : folder.Reached place' := by
  induction parts generalizing place with
  | nil =>
    obtain rfl := Except.ok.inj hwalk
    exact h
  | cons part rest ih =>
    obtain ⟨hpart, hrest⟩ := List.forall_mem_cons.mp hparts
    rw [List.foldlM_cons] at hwalk
    obtain ⟨next, hnext, hwalk⟩ := bind_eq_ok.mp hwalk
    exact ih hrest (reached_enter h hpart hnext) hwalk

theorem reached_start (path : String) :
    folder.Reached (.folder (if path.startsWith "/" then ["/"] else [])) := by
  split
  · exact .inl rfl
  · exact .inr (.inl rfl)

/-- **What a path leads to can be reached.** -/
theorem reached_find (h : folder.find path = .ok place) : folder.Reached place :=
  reached_foldlM (fun _ => FilePath.slash_not_mem_of_mem_parts) (reached_start path) h

/-! ## Writing -/

/-- The folder with a text under names. -/
def put (folder : Folder) (names : List String) (text : String) : Folder :=
  ⟨(names, text) :: folder.files.filter (·.1 ≠ names)⟩

/-- What a place comes to when a text is put under names: whatever stands for the names has the
text. -/
def Place.put (names : List String) (text : String) : Place → Place
  | .folder other => .folder other
  | .file other old => .file other (if other = names then text else old)
  | .free other => if other = names then .file other text else .free other

theorem lookup_filter_of_ne {files : List (List String × String)} (hne : other ≠ names) :
    (files.filter (·.1 ≠ names)).lookup other = files.lookup other := by
  induction files with
  | nil => rfl
  | cons file rest ih =>
    obtain ⟨own, text⟩ := file
    by_cases hown : own = names
    · have hother : (other == own) = false := by simpa [hown] using hne
      rw [List.filter_cons_of_neg (by simpa using hown), ih, List.lookup_cons, hother]
    · rw [List.filter_cons_of_pos (by simpa using hown), List.lookup_cons, List.lookup_cons, ih]

/-- **A new text makes no new folder.** -/
theorem any_put (hnames : folder.Within names) (hother : folder.Within other)
    (hne : other ≠ names) : (folder.put names text).files.any (other.isPrefixOf ·.1) =
      folder.files.any (other.isPrefixOf ·.1) := by
  rw [Bool.eq_iff_iff]
  simp only [put, List.any_cons, Bool.or_eq_true, List.any_eq_true, List.mem_filter,
    List.isPrefixOf_iff_prefix, decide_eq_true_eq]
  constructor
  · rintro (hfront | ⟨file, ⟨hfile, -⟩, hfront⟩)
    · obtain ⟨outer, name, rfl, houter, -, -⟩ := hnames
      obtain ⟨outer', name', rfl, -, hup, hslash⟩ := hother
      have hfront : outer' ++ [name'] <+: outer := by
        rcases List.prefix_concat_iff.mp hfront with hsame | hfront
        · exact absurd hsame hne
        · exact hfront
      have hmem : name' ∈ outer := hfront.subset (by simp)
      rcases houter with houtermost | habove | ⟨file, hfile, hin⟩
      · obtain rfl : outer = ["/"] := by simpa [isOutermost] using houtermost
        exact absurd (List.mem_singleton.mp hmem) hslash
      · exact absurd (by simpa using List.all_eq_true.mp habove _ hmem) hup
      · exact ⟨file, hfile, hfront.trans hin⟩
    · exact ⟨file, hfile, hfront⟩
  · rintro ⟨file, hfile, hfront⟩
    by_cases hsame : file.1 = names
    · exact .inl (hsame ▸ hfront)
    · exact .inr ⟨file, ⟨hfile, hsame⟩, hfront⟩

/-- The names lead to a file, or to where one can be. -/
def IsFile (folder : Folder) (names : List String) : Prop :=
  folder.Within names ∧
    (folder.placeOf names = .free names ∨ ∃ old, folder.placeOf names = .file names old)

section Put

variable (hnames : folder.IsFile names)

include hnames

/-- What names lead to changes only if they are those that are written. -/
theorem placeOf_put (hother : folder.Within other) :
    (folder.put names text).placeOf other = (folder.placeOf other).put names text := by
  by_cases hne : other = names
  · subst hne
    have hlookup : (folder.put other text).files.lookup other = some text := by
      rw [put, List.lookup_cons, beq_self_eq_true]
    rw [placeOf, hlookup]
    rcases hnames.2 with hfree | ⟨old, hfile⟩
    · rw [hfree, Place.put, if_pos rfl]
    · rw [hfile, Place.put, if_pos rfl]
  · have hlookup : (folder.put names text).files.lookup other = folder.files.lookup other := by
      have hother : (other == names) = false := by simpa using hne
      rw [put, List.lookup_cons, hother, lookup_filter_of_ne hne]
    rw [placeOf, placeOf, hlookup, any_put hnames.1 hother hne]
    cases folder.files.lookup other with
    | some old => simp [Place.put, hne]
    | none =>
      dsimp only
      split
      · rfl
      · simp [Place.put, hne]

/-- A step leads to the same place, with the new text if it is the one that is written. -/
theorem enter_put (h : folder.Reached place) (hslash : '/' ∉ name.toList) :
    ((folder.put names text).enter (place.put names text) name).toOption =
      (folder.enter place name).toOption.map (Place.put names text) := by
  cases place with
  | file other old => rfl
  | free other =>
    simp only [Place.put]
    split <;> rfl
  | folder other =>
    simp only [Place.put, enter]
    split
    · rfl
    · split
      · rfl
      · split
        · rfl
        · rename_i hup
          have hwithin : folder.Within (other ++ [name]) :=
            within_append h (by simpa using hup) hslash
          rw [placeOf_put hnames hwithin]
          rfl

theorem foldlM_enter_put {parts : List String} (hparts : ∀ part ∈ parts, '/' ∉ part.toList)
    (h : folder.Reached place) :
    (parts.foldlM (folder.put names text).enter (place.put names text)).toOption =
      (parts.foldlM folder.enter place).toOption.map (Place.put names text) := by
  induction parts generalizing place with
  | nil => rfl
  | cons part rest ih =>
    obtain ⟨hpart, hrest⟩ := List.forall_mem_cons.mp hparts
    have hfirst : ((folder.put names text).enter (place.put names text) part).toOption = _ :=
      enter_put hnames h hpart
    rw [List.foldlM_cons, List.foldlM_cons, toOption_bind, toOption_bind, hfirst]
    cases hentered : folder.enter place part with
    | error fault => rfl
    | ok place' => exact ih hrest (reached_enter h hpart hentered)

/-- **Every path leads where it led before**, only that what is written has its text. -/
theorem find_put (path : String) : ((folder.put names text).find path).toOption =
    (folder.find path).toOption.map (Place.put names text) :=
  foldlM_enter_put hnames (fun _ => FilePath.slash_not_mem_of_mem_parts) (reached_start path)

/-- Other files are found where they were, with the text that they had. -/
theorem find_put_of_ne (hne : other ≠ names) (path : String) :
    (folder.put names text).find path = .ok (.file other old) ↔
      folder.find path = .ok (.file other old) := by
  rw [← toOption_eq_some_iff, ← toOption_eq_some_iff, find_put hnames, Option.map_eq_some_iff]
  constructor
  · rintro ⟨place, hplace, hput⟩
    cases place with
    | folder names' => cases hput
    | file names' text' =>
      obtain ⟨rfl, htext⟩ := Place.file.inj hput
      rw [if_neg hne] at htext
      rwa [← htext]
    | free names' =>
      rw [Place.put] at hput
      split at hput
      · rename_i hsame
        obtain ⟨rfl, -⟩ := Place.file.inj hput
        exact absurd hsame hne
      · cases hput
  · rintro hplace
    exact ⟨_, hplace, by rw [Place.put, if_neg hne]⟩

end Put

/-- **Writing a file** puts the text under the names that its path leads to, which are those of a
file or free. -/
theorem exists_of_write? {folder' : Folder} (h : folder.write? path text = .ok folder') :
    ∃ names, folder.IsFile names ∧ folder' = folder.put names text ∧
      (folder.find path = .ok (.free names) ∨ ∃ old, folder.find path = .ok (.file names old)) := by
  unfold write? at h
  split at h
  · split at h <;> cases h
  · split at h
    · cases h
    · cases h
    · rename_i names old hfind
      obtain rfl := Except.ok.inj h
      obtain ⟨hwithin, hplace⟩ := reached_find hfind
      exact ⟨names, ⟨hwithin, .inr ⟨old, hplace⟩⟩, rfl, .inr ⟨old, hfind⟩⟩
    · rename_i names hfind
      obtain rfl := Except.ok.inj h
      obtain ⟨hwithin, hplace⟩ := reached_find hfind
      exact ⟨names, ⟨hwithin, .inl hplace⟩, rfl, .inl hfind⟩

/-- **What is written is found**, and all other files are as they were. -/
theorem find_of_write? {folder' : Folder} (h : folder.write? path text = .ok folder') :
    ∃ names, folder'.find path = .ok (.file names text) ∧
      ∀ other old path', other ≠ names →
        (folder'.find path' = .ok (.file other old) ↔
          folder.find path' = .ok (.file other old)) := by
  obtain ⟨names, hnames, rfl, hfind⟩ := exists_of_write? h
  refine ⟨names, ?_, fun other old path' hne => find_put_of_ne hnames hne path'⟩
  rw [← toOption_eq_some_iff, find_put hnames]
  rcases hfind with hfree | ⟨old, hfile⟩
  · rw [toOption_eq_some_iff.mpr hfree, Option.map_some, Place.put, if_pos rfl]
  · rw [toOption_eq_some_iff.mpr hfile, Option.map_some, Place.put, if_pos rfl]

end Folder

end SchemaEvolution

import SchemaEvolution.Proofs.Definition

/-!
# What type references are spelled like

A type reference is read from exactly four spellings of a name, two of which are those of arrays,
and blanks around them do not count. A name has no sign of a modifier in it, so at most one of the
marks that are looked for is there, and no spelling can be taken for another one.

## Main definitions

* `TypeRef.Spells`: the spellings of a name with a modifier

## Main results

* `Text.trim_eq_self`: a text without blanks is not trimmed
* `TypeRef.ofChars_eq_ok_iff`: a reference is read exactly from its spellings
* `TypeRef.parse_canonical`: a reference is read again from its canonical spelling
* `TypeRef.parse_canonical_exact`: references are read exactly, and told apart by their canonical
  spelling
-/

namespace SchemaEvolution

/-! ## Texts without blanks -/

namespace Text

variable {c : Char} {chars : List Char}

/-- No letter or number is a blank. -/
theorem not_isBlank_of_isAlphanumeric (h : isAlphanumeric c = true) : isBlank c = false := by
  have hpoints : ∀ point ∈ blankPoints, inRanges alphanumericRanges point = false := by
    decide +kernel
  refine Bool.eq_false_iff.mpr fun hblank => ?_
  have hpoint := hpoints c.toNat (List.contains_iff_mem.mp hblank)
  rw [isAlphanumeric, hpoint] at h
  cases h

/-- **A text without blanks is not trimmed.** -/
theorem trim_eq_self (h : ∀ c ∈ chars, isBlank c = false) : trim chars = chars := by
  have hdrop : ∀ {chars : List Char}, (∀ c ∈ chars, isBlank c = false) →
      chars.dropWhile isBlank = chars := by
    intro chars h
    cases chars with
    | nil => rfl
    | cons c rest => rw [List.dropWhile_cons_of_neg (by simp [h c List.mem_cons_self])]
  rw [trim, hdrop h, hdrop fun c hc => h c (List.mem_reverse.mp hc), List.reverse_reverse]

end Text

namespace TypeRef

open Text

variable {chars body name : List Char} {modifier : Modifier} {ref : TypeRef} {raw : String}

/-! ## Marks -/

theorem nullableBody?_eq_some_iff : nullableBody? chars = some body ↔ chars = '-' :: body := by
  unfold nullableBody?
  split
  · simp
  · rename_i hother
    exact iff_of_false nofun (hother body)

theorem arrayBody?_eq_some_iff : arrayBody? chars = some body ↔ chars = '§' :: body := by
  unfold arrayBody?
  split
  · simp
  · rename_i hother
    exact iff_of_false nofun (hother body)

theorem beforeBrackets?_eq_some_iff :
    beforeBrackets? chars = some body ↔ chars = body ++ ['[', ']'] := by
  have hreverse : chars = body ++ ['[', ']'] ↔ chars.reverse = ']' :: '[' :: body.reverse := by
    rw [← List.reverse_inj, List.reverse_append]
    rfl
  rw [hreverse]
  unfold beforeBrackets?
  split
  · rename_i rest hrest
    rw [hrest, Option.some.injEq, List.cons.injEq, List.cons.injEq, ← List.reverse_inj,
      List.reverse_reverse]
    simp
  · rename_i hother
    exact iff_of_false nofun (hother _)

/-! ## Names have no marks -/

section Names

variable (h : ∀ c ∈ name, isNameChar c = true)

include h

theorem not_mem_of_isNameChar {c : Char} (hc : isNameChar c = false) : c ∉ name := fun hmem => by
  rw [h c hmem] at hc
  cases hc

theorem nullableBody?_of_name : nullableBody? name = none := by
  refine Option.eq_none_iff_forall_ne_some.mpr fun body hbody => ?_
  rw [nullableBody?_eq_some_iff.mp hbody] at h
  exact not_mem_of_isNameChar h not_isNameChar_minus List.mem_cons_self

theorem arrayBody?_of_name : arrayBody? name = none := by
  refine Option.eq_none_iff_forall_ne_some.mpr fun body hbody => ?_
  rw [arrayBody?_eq_some_iff.mp hbody] at h
  exact not_mem_of_isNameChar h not_isNameChar_section List.mem_cons_self

omit h in
theorem not_isNameChar_bracket : isNameChar ']' = false := by decide +kernel

theorem beforeBrackets?_of_name : beforeBrackets? name = none := by
  refine Option.eq_none_iff_forall_ne_some.mpr fun body hbody => ?_
  rw [beforeBrackets?_eq_some_iff.mp hbody] at h
  exact not_mem_of_isNameChar h not_isNameChar_bracket (by simp)

theorem checkName_of_name (hne : name ≠ []) : checkName modifier name = .ok () := by
  have hempty : name.isEmpty = false := by simpa using hne
  rw [checkName, hasArrayMark, nullableBody?_of_name h, beforeBrackets?_of_name h,
    arrayBody?_of_name h, hempty, List.all_eq_true.mpr h]
  rfl

end Names

/-! ## Spellings -/

/-- **The spellings of a name** with a modifier: a sign in front of it, or brackets behind it. -/
inductive Spells (name : List Char) : Modifier → List Char → Prop
  | plain : Spells name .plain name
  | nullable : Spells name .nullable ('-' :: name)
  | brackets : Spells name .array (name ++ ['[', ']'])
  | array : Spells name .array ('§' :: name)

/-- What is split off is one of the two marks of arrays, or none. -/
theorem spells_of_splitArray {array : Bool} (h : splitArray chars = .ok (array, name)) :
    Spells name (if array then .array else .plain) chars := by
  unfold splitArray at h
  split at h
  · rename_i body hbrackets
    split at h
    · cases h
    · obtain ⟨rfl, rfl⟩ := Prod.mk.inj (Except.ok.inj h)
      rw [beforeBrackets?_eq_some_iff.mp hbrackets]
      exact .brackets
  · split at h
    · rename_i body harray
      obtain ⟨rfl, rfl⟩ := Prod.mk.inj (Except.ok.inj h)
      rw [arrayBody?_eq_some_iff.mp harray]
      exact .array
    · obtain ⟨rfl, rfl⟩ := Prod.mk.inj (Except.ok.inj h)
      exact .plain

/-- What is read is spelled. -/
theorem spells_of_ofChars (h : ofChars chars = .ok ref) :
    Spells ref.name.toList ref.modifier chars := by
  unfold ofChars at h
  obtain ⟨⟨array, name⟩, hsplit, h⟩ := bind_eq_ok.mp h
  obtain ⟨modifier, hmodifier, h⟩ := bind_eq_ok.mp h
  obtain ⟨⟨⟩, -, h⟩ := bind_eq_ok.mp h
  obtain rfl := Except.ok.inj h
  rw [String.toList_ofList]
  have hspells := spells_of_splitArray hsplit
  cases hnullable : nullableBody? chars with
  | some body =>
    rw [hnullable] at hmodifier hspells
    rw [nullableBody?_eq_some_iff.mp hnullable]
    cases array with
    | true => cases hmodifier
    | false =>
      obtain rfl := Except.ok.inj hmodifier
      cases hspells
      exact .nullable
  | none =>
    rw [hnullable] at hmodifier hspells
    cases array <;> obtain rfl := Except.ok.inj hmodifier <;> exact hspells

section Reading

variable (hne : name ≠ []) (hall : ∀ c ∈ name, isNameChar c = true)

include hne hall

/-- A text without the sign of nullables is what is split off. -/
theorem ofChars_of_splitArray (array : Bool) (hnullable : nullableBody? chars = none)
    (hsplit : splitArray chars = .ok (array, name))
    (hmodifier : modifierOf false array = .ok modifier) :
    ofChars chars = .ok ⟨String.ofList name, modifier⟩ := by
  rw [ofChars, hnullable]
  dsimp only
  rw [hsplit, ok_bind, hmodifier, ok_bind, checkName_of_name hall hne]
  rfl

/-- What is spelled is read. -/
theorem ofChars_of_spells (h : Spells name modifier chars) :
    ofChars chars = .ok ⟨String.ofList name, modifier⟩ := by
  have hplain : splitArray name = .ok (false, name) := by
    rw [splitArray, beforeBrackets?_of_name hall, arrayBody?_of_name hall]
  cases h with
  | plain => exact ofChars_of_splitArray hne hall false (nullableBody?_of_name hall) hplain rfl
  | nullable =>
    rw [ofChars, nullableBody?_eq_some_iff.mpr rfl]
    dsimp only
    rw [hplain, ok_bind, modifierOf, ok_bind, checkName_of_name hall hne]
    rfl
  | brackets =>
    refine ofChars_of_splitArray hne hall true ?_ ?_ rfl
    · refine Option.eq_none_iff_forall_ne_some.mpr fun body hbody => ?_
      obtain ⟨c, rest, rfl⟩ := List.exists_cons_of_ne_nil hne
      obtain ⟨rfl, -⟩ := List.cons.inj (nullableBody?_eq_some_iff.mp hbody)
      exact not_mem_of_isNameChar hall not_isNameChar_minus List.mem_cons_self
    · rw [splitArray, beforeBrackets?_eq_some_iff.mpr rfl]
      dsimp only
      rw [arrayBody?_of_name hall]
      rfl
  | array =>
    refine ofChars_of_splitArray hne hall true rfl ?_ rfl
    have hbrackets : beforeBrackets? ('§' :: name) = none := by
      refine Option.eq_none_iff_forall_ne_some.mpr fun body hbody => ?_
      have hmem : ']' ∈ '§' :: name := by
        rw [beforeBrackets?_eq_some_iff.mp hbody]
        simp
      exact not_mem_of_isNameChar hall not_isNameChar_bracket
        ((List.mem_cons.mp hmem).resolve_left (by decide))
    rw [splitArray, hbrackets, arrayBody?_eq_some_iff.mpr rfl]

end Reading

/-- **A reference is read exactly from the spellings** of a name with its modifier. -/
theorem ofChars_eq_ok_iff : ofChars chars = .ok ref ↔
    IsName ref.name ∧ Spells ref.name.toList ref.modifier chars := by
  constructor
  · exact fun h => ⟨isName_of_ofChars h, spells_of_ofChars h⟩
  · rintro ⟨⟨hne, hall⟩, hspells⟩
    rw [ofChars_of_spells hne hall hspells, String.ofList_toList]

theorem parse_eq_ok_iff : parse raw = .ok ref ↔ ofChars (trim raw.toList) = .ok ref := by
  unfold parse
  split
  · rename_i found hfound
    rw [hfound, Except.ok.injEq, Except.ok.injEq]
  · rename_i fault hfault
    rw [hfault]
    exact iff_of_false nofun nofun

/-! ## The canonical spelling -/

theorem not_isBlank_of_isNameChar {c : Char} (h : isNameChar c = true) : isBlank c = false := by
  simp only [isNameChar, Bool.or_eq_true, beq_iff_eq] at h
  rcases h with (halphanumeric | rfl) | rfl
  · exact not_isBlank_of_isAlphanumeric halphanumeric
  · decide
  · decide

/-- **A reference is read again from its canonical spelling.** -/
theorem parse_canonical (h : IsName ref.name) : parse ref.canonical = .ok ref := by
  have hsign : ∀ c ∈ ref.modifier.sign, isBlank c = false := by
    cases ref.modifier <;> simp [Modifier.sign] <;> decide
  have hblank : ∀ c ∈ ref.canonical.toList, isBlank c = false := by
    intro c hc
    rw [toList_canonical, List.mem_append] at hc
    exact hc.elim (hsign c) fun hname => not_isBlank_of_isNameChar (h.2 c hname)
  rw [parse_eq_ok_iff, trim_eq_self hblank, toList_canonical, ofChars_eq_ok_iff]
  refine ⟨h, ?_⟩
  cases ref.modifier with
  | plain => exact .plain
  | nullable => exact .nullable
  | array => exact .array

/-- **References are read exactly, and told apart by their canonical spelling.** A text is read
exactly if, without the blanks around it, it is a name, a name behind one of the two signs or a name
with brackets behind it, and then it is read as that name with the modifier of the mark. Every
failure shows the text with its blanks. What is read is read again from its canonical spelling. Two
references with one canonical spelling are the same, and no wrapped reference is spelled like a name
in the catalog of a schema. -/
theorem parse_canonical_exact :
    (∀ raw ref, parse raw = .ok ref ↔
      IsName ref.name ∧ Spells ref.name.toList ref.modifier (trim raw.toList)) ∧
    (∀ raw e, parse raw = .error e → ∃ fault, e = .structuralNesting raw fault) ∧
    (∀ raw ref, parse raw = .ok ref → parse ref.canonical = .ok ref) ∧
    (∀ raw raw' ref ref', parse raw = .ok ref → parse raw' = .ok ref' →
      ref.canonical = ref'.canonical → ref = ref') ∧
    ∀ config catalog, Catalog.ofConfig config = .ok catalog →
      ∀ name category, catalog.category? name = some category →
        ∀ raw ref, parse raw = .ok ref → ref.isWrapped = true → ref.canonical ≠ name := by
  refine ⟨fun raw ref => parse_eq_ok_iff.trans ofChars_eq_ok_iff,
    fun raw e => exists_of_parse_eq_error, fun raw ref h => parse_canonical (isName_of_parse h),
    fun raw raw' ref ref' h h' => canonical_injOn (isName_of_parse h) (isName_of_parse h'), ?_⟩
  rintro config catalog hcatalog name category hcategory raw ref - hwrapped rfl
  exact not_isName_canonical hwrapped ((Catalog.category?_ofConfig hcatalog).1 _ _ hcategory)

/-- Brackets are read as the sign of arrays, with blanks around them or without. -/
theorem parse_canonical_exact_brackets :
    parse " Point[] " = .ok ⟨"Point", .array⟩ ∧ parse "§Point" = .ok ⟨"Point", .array⟩ := by
  obtain ⟨hreads, -, hagain, -⟩ := parse_canonical_exact
  have hname : IsName "Point" := ⟨by decide, List.all_eq_true.mp (by decide +kernel)⟩
  have htrim : trim " Point[] ".toList = "Point".toList ++ ['[', ']'] := by decide
  have hread : parse " Point[] " = .ok ⟨"Point", .array⟩ := by
    refine (hreads _ _).mpr ⟨hname, ?_⟩
    rw [htrim]
    exact .brackets
  exact ⟨hread, hagain _ _ hread⟩

end TypeRef

end SchemaEvolution

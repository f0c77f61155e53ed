import SchemaEvolution.Proofs.TypeSpelling

/-!
# What code references are spelled like

A path is written as segments with a dot between each and the next. Reading looks at the path as a
whole: at its two ends, for dots side by side, and at its characters. The conditions on the ends and
on the dots of a text hold exactly if they hold of what follows its first dot and the part in front
of it is not empty, so they are those on segments. A path has no number sign, so a text is parted
where its spelling puts the sign together.

## Main definitions

* `CodeRef.Dotted`: segments with dots between them
* `CodeRef.Spells`: the text of a reference, from its parts

## Main results

* `CodeRef.isPath_iff`: the paths are the segments with dots between them
* `CodeRef.ofChars_eq_ok_iff`: a reference is read exactly from what spells it
* `CodeRef.parse_spelling`: a reference is read again from its spelling
* `CodeRef.parse_spelling_exact`: references are read exactly, and told apart by their spelling
-/

namespace SchemaEvolution.CodeRef

open Text (isBlank trim not_isBlank_of_isAlphanumeric trim_eq_self)

variable {c : Char} {chars segment owner field rest : List Char} {ref ref' : CodeRef}
  {raw : String}

/-! ## Segments and dots -/

/-- The characters of a segment: those of a field name and dollar signs. -/
def isSegmentChar (c : Char) : Bool :=
  isFieldChar c || c == '$'

/-- A segment of a path is not empty, and of segment characters. -/
def IsSegment (segment : List Char) : Prop :=
  segment ≠ [] ∧ ∀ c ∈ segment, isSegmentChar c = true

/-- **Segments with dots between them**, at least one of them. -/
inductive Dotted : List Char → Prop
  | segment {segment : List Char} (hsegment : IsSegment segment) : Dotted segment
  | dot {segment rest : List Char} (hsegment : IsSegment segment) (hrest : Dotted rest) :
      Dotted (segment ++ '.' :: rest)

theorem isPathChar_eq : isPathChar c = (isSegmentChar c || c == '.') := by
  rw [isPathChar, isSegmentChar, Bool.or_right_comm]

theorem isSegmentChar_dot : isSegmentChar '.' = false := by decide +kernel

theorem not_mem_dot (h : ∀ c ∈ segment, isSegmentChar c = true) : '.' ∉ segment := fun hdot => by
  have hchar := h '.' hdot
  rw [isSegmentChar_dot] at hchar
  cases hchar

/-- Apart from dots, a path has the characters of a segment. -/
theorem isPathChar_iff (h : c ≠ '.') : isPathChar c = true ↔ isSegmentChar c = true := by
  simp [isPathChar_eq, h]

/-! ## Paths -/

theorem isPath_iff_and : isPath chars = true ↔
    chars ≠ [] ∧ chars.head? ≠ some '.' ∧ chars.getLast? ≠ some '.' ∧
      hasDoubleDot chars = false ∧ ∀ c ∈ chars, isPathChar c = true := by
  simp [isPath, and_assoc]

section FirstDot

variable (h : '.' ∉ segment)

include h

theorem head?_append_dot : (segment ++ '.' :: rest).head? ≠ some '.' ↔ segment ≠ [] := by
  cases segment with
  | nil => simp
  | cons c segment =>
    have hc : c ≠ '.' := fun heq => h (heq ▸ List.mem_cons_self)
    simpa using hc

omit h in
theorem getLast?_append_dot :
    (segment ++ '.' :: rest).getLast? ≠ some '.' ↔ rest ≠ [] ∧ rest.getLast? ≠ some '.' := by
  rw [List.getLast?_append_of_ne_nil _ (List.cons_ne_nil _ _), List.getLast?_cons]
  cases hlast : rest.getLast? with
  | none => simp [List.getLast?_eq_none_iff.mp hlast]
  | some last =>
    have hne : rest ≠ [] := fun hnil => by simp [hnil] at hlast
    simp [hne]

omit h in
/-- Dots stand side by side at a dot or behind it. -/
theorem hasDoubleDot_dot :
    hasDoubleDot ('.' :: rest) = (rest.head? == some '.' || hasDoubleDot rest) := by
  cases rest with
  | nil => rfl
  | cons c rest =>
    by_cases hdot : c = '.'
    · subst hdot
      rfl
    · rw [hasDoubleDot]
      · simp [hdot]
      · simpa using hdot

/-- In front of the first dot no dots stand side by side. -/
theorem hasDoubleDot_append : hasDoubleDot (segment ++ rest) = hasDoubleDot rest := by
  induction segment with
  | nil => rfl
  | cons c segment ih =>
    obtain ⟨hc, hsegment⟩ := not_or.mp (List.mem_cons.not.mp h)
    rw [List.cons_append, hasDoubleDot, ih hsegment]
    intro rest' heq
    exact absurd heq.symm hc

theorem forall_isPathChar_iff : (∀ c ∈ segment, isPathChar c = true) ↔
    ∀ c ∈ segment, isSegmentChar c = true :=
  forall₂_congr fun _ hc => isPathChar_iff (ne_of_mem_of_not_mem hc h)

/-- A text without dots is a path if it is a segment. -/
theorem isPath_segment : isPath segment = true ↔ IsSegment segment := by
  have hhead : segment.head? ≠ some '.' := fun heq => h (List.mem_of_head? heq)
  have hlast : segment.getLast? ≠ some '.' := fun heq => h (List.mem_of_getLast? heq)
  have hdouble : hasDoubleDot (segment ++ []) = false := hasDoubleDot_append h
  rw [List.append_nil] at hdouble
  rw [isPath_iff_and, forall_isPathChar_iff h, IsSegment]
  simp only [hhead, hlast, hdouble, ne_eq, not_false_eq_true, true_and]

/-- **A text is a path if it is a segment up to its first dot and a path behind it.** -/
theorem isPath_append_dot :
    isPath (segment ++ '.' :: rest) = true ↔ IsSegment segment ∧ isPath rest = true := by
  have hchars : (∀ c ∈ segment ++ '.' :: rest, isPathChar c = true) ↔
      (∀ c ∈ segment, isSegmentChar c = true) ∧ ∀ c ∈ rest, isPathChar c = true := by
    rw [List.forall_mem_append, List.forall_mem_cons, forall_isPathChar_iff h]
    simp [isPathChar]
  have hdouble : hasDoubleDot (segment ++ '.' :: rest) = false ↔
      rest.head? ≠ some '.' ∧ hasDoubleDot rest = false := by
    simp [hasDoubleDot_append h, hasDoubleDot_dot]
  rw [isPath_iff_and, isPath_iff_and, IsSegment, head?_append_dot h, getLast?_append_dot, hdouble,
    hchars]
  have hne : segment ++ '.' :: rest ≠ [] := by simp
  tauto

end FirstDot

/-- **The paths are the segments with dots between them.** -/
theorem isPath_iff : isPath chars = true ↔ Dotted chars := by
  constructor
  · intro h
    induction hlength : chars.length using Nat.strong_induction_on generalizing chars with
    | h length ih =>
      by_cases hdot : '.' ∈ chars
      · obtain ⟨segment, rest, rfl, hsegment⟩ := List.eq_append_cons_of_mem hdot
        obtain ⟨hfirst, hrest⟩ := (isPath_append_dot hsegment).mp h
        refine .dot hfirst (ih rest.length ?_ hrest rfl)
        rw [← hlength, List.length_append, List.length_cons]
        omega
      · exact .segment ((isPath_segment hdot).mp h)
  · intro h
    induction h with
    | segment hsegment => exact (isPath_segment (not_mem_dot hsegment.2)).mpr hsegment
    | dot hsegment _ ih => exact (isPath_append_dot (not_mem_dot hsegment.2)).mpr ⟨hsegment, ih⟩

/-! ## The number sign -/

theorem splitAtSign_of_not_mem (h : '#' ∉ chars) : splitAtSign chars = none := by
  induction chars with
  | nil => rfl
  | cons c rest ih =>
    obtain ⟨hc, hrest⟩ := not_or.mp (List.mem_cons.not.mp h)
    rw [splitAtSign, ih hrest]
    · rfl
    · exact fun heq => hc heq.symm

/-- A text is parted at its first number sign. -/
theorem splitAtSign_append (h : '#' ∉ owner) :
    splitAtSign (owner ++ '#' :: field) = some (owner, field) := by
  induction owner with
  | nil => rfl
  | cons c owner ih =>
    obtain ⟨hc, howner⟩ := not_or.mp (List.mem_cons.not.mp h)
    rw [List.cons_append, splitAtSign, ih howner]
    · rfl
    · exact fun heq => hc heq.symm

theorem not_mem_sign_of_dotted (h : Dotted chars) : '#' ∉ chars := fun hmem => by
  obtain ⟨-, -, -, -, hall⟩ := isPath_iff_and.mp (isPath_iff.mpr h)
  have hsign : isPathChar '#' = false := by decide +kernel
  rw [hall '#' hmem] at hsign
  cases hsign

/-! ## What is read -/

/-- A field name is not empty, and of field characters. -/
def IsFieldName (chars : List Char) : Prop :=
  chars ≠ [] ∧ ∀ c ∈ chars, isFieldChar c = true

theorem isField_iff : isField chars = true ↔ IsFieldName chars := by
  simp [isField, IsFieldName]

/-- **The text of a reference**: a path, with a number sign and a field name behind it if the
reference is one to a field. -/
inductive Spells : CodeRef → List Char → Prop
  | construct {path : String} (hpath : Dotted path.toList) : Spells (.construct path) path.toList
  | staticField {owner field : String} (howner : Dotted owner.toList)
      (hfield : IsFieldName field.toList) :
      Spells (.staticField owner field) (owner.toList ++ '#' :: field.toList)

theorem ofChars_path (h : '#' ∉ chars) :
    ofChars chars = .ok ref ↔ Dotted chars ∧ ref = .construct (String.ofList chars) := by
  rw [ofChars, splitAtSign_of_not_mem h, ← isPath_iff]
  cases isPath chars with
  | true => simp [eq_comm]
  | false => simp

theorem ofChars_sign (h : '#' ∉ owner) :
    ofChars (owner ++ '#' :: field) = .ok ref ↔ Dotted owner ∧ IsFieldName field ∧
      ref = .staticField (String.ofList owner) (String.ofList field) := by
  rw [ofChars, splitAtSign_append h, ← isPath_iff, ← isField_iff]
  dsimp only
  cases isPath owner with
  | true =>
    cases isField field with
    | true => simp [eq_comm]
    | false => simp
  | false => simp

/-- **A reference is read exactly from what spells it.** -/
theorem ofChars_eq_ok_iff : ofChars chars = .ok ref ↔ Spells ref chars := by
  constructor
  · intro h
    by_cases hsign : '#' ∈ chars
    · obtain ⟨owner, field, rfl, howner⟩ := List.eq_append_cons_of_mem hsign
      obtain ⟨hpath, hfield, rfl⟩ := (ofChars_sign howner).mp h
      have hspells := @Spells.staticField (String.ofList owner) (String.ofList field)
      rw [String.toList_ofList, String.toList_ofList] at hspells
      exact hspells hpath hfield
    · obtain ⟨hpath, rfl⟩ := (ofChars_path hsign).mp h
      have hspells := @Spells.construct (String.ofList chars)
      rw [String.toList_ofList] at hspells
      exact hspells hpath
  · rintro (hpath | ⟨howner, hfield⟩)
    · refine (ofChars_path (not_mem_sign_of_dotted hpath)).mpr ⟨hpath, ?_⟩
      rw [String.ofList_toList]
    · refine (ofChars_sign (not_mem_sign_of_dotted howner)).mpr ⟨howner, hfield, ?_⟩
      rw [String.ofList_toList, String.ofList_toList]

theorem parse_eq_ok_iff : parse raw = .ok ref ↔ ofChars (trim raw.toList) = .ok ref := by
  unfold parse
  split
  · rename_i found hfound
    rw [hfound, Except.ok.injEq, Except.ok.injEq]
  · rename_i fault hfault
    rw [hfault]
    exact iff_of_false nofun nofun

/-! ## The spelling -/

theorem Spells.eq_spelling (h : Spells ref chars) : chars = ref.spelling.toList := by
  cases h with
  | construct => rfl
  | staticField => simp [spelling]

theorem not_isBlank_of_isFieldChar (h : isFieldChar c = true) : isBlank c = false := by
  simp only [isFieldChar, Bool.or_eq_true, beq_iff_eq] at h
  rcases h with halphanumeric | rfl
  · exact not_isBlank_of_isAlphanumeric halphanumeric
  · decide

theorem not_isBlank_of_isPathChar (h : isPathChar c = true) : isBlank c = false := by
  simp only [isPathChar, Bool.or_eq_true, beq_iff_eq] at h
  rcases h with (hfield | rfl) | rfl
  · exact not_isBlank_of_isFieldChar hfield
  · decide
  · decide

/-- There is no blank in what spells a reference. -/
theorem Spells.not_isBlank (h : Spells ref chars) : ∀ c ∈ chars, isBlank c = false := by
  have hdotted : ∀ {path : List Char}, Dotted path → ∀ c ∈ path, isBlank c = false := by
    intro path hpath c hc
    obtain ⟨-, -, -, -, hall⟩ := isPath_iff_and.mp (isPath_iff.mpr hpath)
    exact not_isBlank_of_isPathChar (hall c hc)
  cases h with
  | construct hpath => exact hdotted hpath
  | staticField howner hfield =>
    refine List.forall_mem_append.mpr ⟨hdotted howner, List.forall_mem_cons.mpr ⟨by decide, ?_⟩⟩
    exact fun c hc => not_isBlank_of_isFieldChar (hfield.2 c hc)

/-- **A reference is read again from its spelling.** -/
theorem parse_spelling (h : parse raw = .ok ref) : parse ref.spelling = .ok ref := by
  have hspells := ofChars_eq_ok_iff.mp (parse_eq_ok_iff.mp h)
  rw [parse_eq_ok_iff, ← hspells.eq_spelling, trim_eq_self hspells.not_isBlank,
    ofChars_eq_ok_iff]
  exact hspells

/-- **References are read exactly, and told apart by their spelling.** A text is read exactly if,
without the blanks around it, it is a path of segments, or one with a number sign and a field name
behind it, and then it is read as the reference with these parts. What is read is read again from
its spelling, so two references that are read are the same exactly if they are spelled the same. -/
theorem parse_spelling_exact :
    (∀ raw ref, parse raw = .ok ref ↔ Spells ref (trim raw.toList)) ∧
    (∀ raw ref, parse raw = .ok ref → parse ref.spelling = .ok ref) ∧
    ∀ raw raw' ref ref', parse raw = .ok ref → parse raw' = .ok ref' →
      (ref = ref' ↔ ref.spelling = ref'.spelling) := by
  refine ⟨fun raw ref => parse_eq_ok_iff.trans ofChars_eq_ok_iff, fun raw ref => parse_spelling,
    fun raw raw' ref ref' h h' => ⟨congrArg spelling, fun heq => ?_⟩⟩
  have hread := parse_spelling h
  rw [heq, parse_spelling h'] at hread
  exact (Except.ok.inj hread).symm

/-- A field is read with blanks around it, and again without. -/
theorem parse_spelling_exact_field :
    parse " pkg.Holder#FIELD " = .ok (.staticField "pkg.Holder" "FIELD") ∧
    parse "pkg.Holder#FIELD" = .ok (.staticField "pkg.Holder" "FIELD") := by
  obtain ⟨hreads, hagain, -⟩ := parse_spelling_exact
  have hread : parse " pkg.Holder#FIELD " = .ok (.staticField "pkg.Holder" "FIELD") := by
    refine (hreads _ _).mpr ?_
    have htrim : trim " pkg.Holder#FIELD ".toList =
        "pkg.Holder".toList ++ '#' :: "FIELD".toList := by decide
    rw [htrim]
    exact .staticField (isPath_iff.mp (by decide +kernel)) (isField_iff.mp (by decide +kernel))
  have hspelling : spelling (.staticField "pkg.Holder" "FIELD") = "pkg.Holder#FIELD" := by decide
  exact ⟨hread, hspelling ▸ hagain _ _ hread⟩

end SchemaEvolution.CodeRef

import SchemaEvolution.TypeRef.Spelling
import SchemaEvolution.Proofs.Failure

/-!
# Names of types and of their wrappers

A name that a type reference can be read with carries no sign, so the canonical spelling of a
wrapped reference is never a name, and no two wrapped references share their spelling.

## Main definitions

* `TypeRef.IsName`: a text that a type may be called

## Main results

* `TypeRef.isName_of_parse`: every reference that is read is one to a name
* `TypeRef.canonical_injOn`: references to names are told apart by their canonical spelling
-/

namespace SchemaEvolution.TypeRef

/-- A text that a type may be called: name characters only, and at least one. -/
def IsName (name : String) : Prop :=
  name.toList ≠ [] ∧ ∀ c ∈ name.toList, isNameChar c = true

theorem not_isNameChar_minus : isNameChar '-' = false := by decide +kernel

theorem not_isNameChar_section : isNameChar '§' = false := by decide +kernel

theorem sign_ne_nil {modifier : Modifier} (h : modifier ≠ .plain) :
    ∃ c, modifier.sign = [c] ∧ isNameChar c = false := by
  cases modifier with
  | plain => exact absurd rfl h
  | nullable => exact ⟨'-', rfl, not_isNameChar_minus⟩
  | array => exact ⟨'§', rfl, not_isNameChar_section⟩

theorem isWrapped_iff {ref : TypeRef} : ref.isWrapped = true ↔ ref.modifier ≠ .plain := by
  simp [isWrapped]

theorem toList_canonical (ref : TypeRef) :
    ref.canonical.toList = ref.modifier.sign ++ ref.name.toList :=
  String.toList_ofList

theorem canonical_plain (name : String) : canonical ⟨name, .plain⟩ = name := by
  simp [canonical, Modifier.sign]

theorem canonical_of_not_wrapped {ref : TypeRef} (h : ref.isWrapped = false) :
    ref.canonical = ref.name := by
  obtain ⟨name, modifier⟩ := ref
  obtain rfl : modifier = .plain := by simpa [isWrapped] using h
  exact canonical_plain name

/-- The spelling of a wrapped reference is not a name. -/
theorem not_isName_canonical {ref : TypeRef} (h : ref.isWrapped = true) :
    ¬ IsName ref.canonical := by
  obtain ⟨c, hsign, hc⟩ := sign_ne_nil (isWrapped_iff.mp h)
  intro hname
  have hall := hname.2 c (by rw [toList_canonical, hsign]; exact List.mem_cons_self)
  rw [hc] at hall
  cases hall

/-- Wrapped references with one spelling are one reference. -/
theorem canonical_inj_of_wrapped {a b : TypeRef} (ha : a.isWrapped = true)
    (hb : b.isWrapped = true) (h : a.canonical = b.canonical) : a = b := by
  obtain ⟨name, modifier⟩ := a
  obtain ⟨name', modifier'⟩ := b
  have hlist := congrArg String.toList h
  rw [toList_canonical, toList_canonical] at hlist
  cases modifier <;> cases modifier' <;>
    simp_all [isWrapped, Modifier.sign, String.toList_inj]

/-- **The canonical spelling tells references to names apart.** -/
theorem canonical_injOn {a b : TypeRef} (ha : IsName a.name) (hb : IsName b.name)
    (h : a.canonical = b.canonical) : a = b := by
  cases hwa : a.isWrapped with
  | true =>
    cases hwb : b.isWrapped with
    | true => exact canonical_inj_of_wrapped hwa hwb h
    | false =>
      rw [canonical_of_not_wrapped hwb] at h
      exact absurd (h ▸ hb) (not_isName_canonical hwa)
  | false =>
    cases hwb : b.isWrapped with
    | true =>
      rw [canonical_of_not_wrapped hwa] at h
      exact absurd (h.symm ▸ ha) (not_isName_canonical hwb)
    | false =>
      obtain ⟨name, modifier⟩ := a
      obtain ⟨name', modifier'⟩ := b
      obtain rfl : modifier = .plain := by simpa [isWrapped] using hwa
      obtain rfl : modifier' = .plain := by simpa [isWrapped] using hwb
      rw [canonical_plain, canonical_plain] at h
      rw [h]

/-! ## What is read -/

theorem isName_of_checkName {modifier : Modifier} {name : List Char}
    (h : checkName modifier name = .ok ()) : IsName (String.ofList name) := by
  unfold checkName at h
  split at h
  · cases h
  split at h
  · cases h
  split at h
  · cases h
  split at h
  · rename_i hne hall
    rw [IsName, String.toList_ofList]
    exact ⟨by simpa using hne, List.all_eq_true.mp hall⟩
  · cases h

theorem isName_of_ofChars {chars : List Char} {ref : TypeRef} (h : ofChars chars = .ok ref) :
    IsName ref.name := by
  unfold ofChars at h
  obtain ⟨⟨array, name⟩, -, h⟩ := bind_eq_ok.mp h
  obtain ⟨modifier, -, h⟩ := bind_eq_ok.mp h
  obtain ⟨⟨⟩, hcheck, h⟩ := bind_eq_ok.mp h
  obtain rfl := Except.ok.inj h
  exact isName_of_checkName hcheck

/-- **Every reference that is read is one to a name.** -/
theorem isName_of_parse {raw : String} {ref : TypeRef} (h : parse raw = .ok ref) :
    IsName ref.name := by
  unfold parse at h
  split at h
  · rename_i hchars
    obtain rfl := Except.ok.inj h
    exact isName_of_ofChars hchars
  · cases h

/-- A failure shows the text as it was given. -/
theorem exists_of_parse_eq_error {raw : String} {e : SchemaError} (h : parse raw = .error e) :
    ∃ fault, e = .structuralNesting raw fault := by
  unfold parse at h
  split at h
  · cases h
  · exact ⟨_, (Except.error.inj h).symm⟩

theorem parse_blamesSchema (raw : String) : BlamesSchema (parse raw) := by
  intro e he
  obtain ⟨fault, rfl⟩ := exists_of_parse_eq_error he
  rfl

end SchemaEvolution.TypeRef

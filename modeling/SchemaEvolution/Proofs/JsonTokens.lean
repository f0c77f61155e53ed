import SchemaEvolution.Document.Json.Token
import SchemaEvolution.Json.Value
import Mathlib

/-!
# The tokens of written JSON values

A value is written as a text, on one line or over several, and the text is taken apart into tokens
again. Every token but a number shows where it ends, and a number is never followed by a character
that could be part of it, so a text can be taken apart piece by piece: the tokens of a piece are
there whatever follows it. Both ways of writing a value give the same tokens.

## Main definitions

* `Json.lexemes`: the tokens of a value
* `Json.Lexes`: the tokens of a text
* `Json.Closed`, `Json.Written`: the tokens of a piece of text, whatever follows it, and whatever
  that cannot be part of a number
* `Json.Readable`: values whose numbers fit in 64 bits, nested up to a depth

## Main results

* `Json.Lexes.tokens_eq`: the number of characters is enough to find all tokens
* `Json.unquote_escape`: a text between quotes is read again, with all of its escapes
* `Json.written_compact`, `Json.written_pretty`: the tokens of a written value are its own
-/

namespace SchemaEvolution.Json

variable {c : Char} {chars rest part part' sep : List Char} {token : Token}
  {more ts ts' : List Token} {value : Json}

/-! ## The tokens of a value -/

mutual

/-- **The tokens of a value.** -/
def lexemes : Json → List Token
  | null => [.scalar .null]
  | boolean value => [.scalar (.boolean value)]
  | number value => [.scalar (.integer value)]
  | text value => [.text value]
  | array items => .openSequence :: ([.comma].intercalate (itemLexemes items) ++ [.closeSequence])
  | object members => .openTable :: ([.comma].intercalate (memberLexemes members) ++ [.closeTable])

/-- The tokens of items. -/
def itemLexemes : List Json → List (List Token)
  | [] => []
  | item :: rest => lexemes item :: itemLexemes rest

/-- The tokens of members. -/
def memberLexemes : List (String × Json) → List (List Token)
  | [] => []
  | (name, value) :: rest => (.text name :: .colon :: lexemes value) :: memberLexemes rest

end

/-- **Values that are read as they are written**: their numbers fit in 64 bits, and they are nested
at most so deep. -/
inductive Readable : (depth : Nat) → Json → Prop
  | null {depth : Nat} : Readable depth null
  | boolean {depth : Nat} (value : Bool) : Readable depth (boolean value)
  | number {depth value : Nat} (hfits : Word.fits 64 value = true) : Readable depth (number value)
  | text {depth : Nat} (value : String) : Readable depth (text value)
  | array {depth : Nat} {items : List Json} (hitems : ∀ item ∈ items, Readable depth item) :
      Readable (depth + 1) (array items)
  | object {depth : Nat} {members : List (String × Json)}
      (hmembers : ∀ member ∈ members, Readable depth member.2) :
      Readable (depth + 1) (object members)

/-! ## The tokens of a text -/

/-- **The tokens of a text.** Blanks are passed over; a token is followed by those of what it leaves
of the text. -/
inductive Lexes : List Char → List Token → Prop
  | nil : Lexes [] []
  | blank {c : Char} {rest : List Char} {ts : List Token} (hc : isSpace c = true)
      (hrest : Lexes rest ts) : Lexes (c :: rest) ts
  | token {c : Char} {rest left : List Char} {token : Token} {ts : List Token}
      (hc : isSpace c = false) (hscan : scanToken c rest = some (token, left))
      (hleft : left.length ≤ rest.length) (hts : Lexes left ts) : Lexes (c :: rest) (token :: ts)

theorem Lexes.tokensUpTo_eq {bound : Nat} (h : Lexes chars ts) (hbound : chars.length ≤ bound) :
    tokensUpTo bound chars = ts := by
  induction h generalizing bound with
  | nil => cases bound <;> rfl
  | blank hc _ ih =>
    cases bound with
    | zero => cases hbound
    | succ bound =>
      rw [tokensUpTo, if_pos hc]
      exact ih (Nat.le_of_succ_le_succ hbound)
  | token hc hscan hleft _ ih =>
    cases bound with
    | zero => cases hbound
    | succ bound =>
      rw [tokensUpTo, if_neg (by simp [hc]), hscan]
      dsimp only
      rw [ih (hleft.trans (Nat.le_of_succ_le_succ hbound))]

/-- **The number of characters is enough** to find all tokens of a text. -/
theorem Lexes.tokens_eq (h : Lexes chars ts) : tokens chars = ts := h.tokensUpTo_eq le_rfl

/-! ## Pieces of a text -/

/-- A text that cannot go on with a number in front of it. -/
def Stops (rest : List Char) : Prop :=
  ∀ c ∈ rest.head?, c.isDigit = false ∧ c ≠ '.' ∧ c ≠ 'e' ∧ c ≠ 'E'

/-- **The tokens of a piece** that shows where it ends. -/
def Closed (part : List Char) (ts : List Token) : Prop :=
  ∀ ⦃rest more⦄, Lexes rest more → Lexes (part ++ rest) (ts ++ more)

/-- **The tokens of a piece** in front of what cannot go on with a number. -/
def Written (part : List Char) (ts : List Token) : Prop :=
  ∀ ⦃rest more⦄, Stops rest → Lexes rest more → Lexes (part ++ rest) (ts ++ more)

theorem Closed.nil : Closed [] [] := fun _ _ h => h

theorem Closed.append (h : Closed part ts) (h' : Closed part' ts') :
    Closed (part ++ part') (ts ++ ts') := fun rest more hrest => by
  rw [List.append_assoc, List.append_assoc]
  exact h (h' hrest)

theorem Closed.written (h : Closed part ts) : Written part ts := fun _ _ _ hrest => h hrest

theorem Closed.append_written (h : Closed part ts) (h' : Written part' ts') :
    Written (part ++ part') (ts ++ ts') := fun rest more hstops hrest => by
  rw [List.append_assoc, List.append_assoc]
  exact h (h' hstops hrest)

theorem stops_append (hne : part ≠ []) (h : Stops part) : Stops (part ++ rest) := by
  intro c hc
  rw [List.head?_append_of_ne_nil _ hne] at hc
  exact h c hc

/-- A number is closed by what cannot be part of it. -/
theorem Written.append_closed (h : Written part ts) (hne : part' ≠ []) (hstops : Stops part')
    (h' : Closed part' ts') : Closed (part ++ part') (ts ++ ts') := fun rest more hrest => by
  rw [List.append_assoc, List.append_assoc]
  exact h (stops_append hne hstops) (h' hrest)

/-- A token that is the same whatever follows it. -/
theorem closed_token (hc : isSpace c = false)
    (hscan : ∀ rest, scanToken c (part ++ rest) = some (token, rest)) :
    Closed (c :: part) [token] :=
  fun rest _ hrest => .token hc (hscan rest) (by simp) hrest

theorem closed_blanks (h : ∀ c ∈ chars, isSpace c = true) : Closed chars [] := by
  induction chars with
  | nil => exact .nil
  | cons c chars ih =>
    obtain ⟨hc, hchars⟩ := List.forall_mem_cons.mp h
    exact fun rest more hrest => .blank hc (ih hchars hrest)

/-- A list with a separator in front of all items but the first. -/
theorem intercalate_cons {α : Type} (sep x : List α) (xs : List (List α)) :
    sep.intercalate (x :: xs) = x ++ xs.flatMap (sep ++ ·) := by
  induction xs generalizing x with
  | nil => simp
  | cons y ys ih => simp [ih]

/-- **Pieces with commas between them.** What separates them stops a number at the end of each. -/
theorem written_intercalate {ι : Type} {parts : ι → List Char} {tokensOf : ι → List Token}
    {items : List ι} (hne : sep ≠ []) (hstops : Stops sep) (hsep : Closed sep [.comma])
    (h : ∀ item ∈ items, Written (parts item) (tokensOf item)) :
    Written (sep.intercalate (items.map parts)) ([.comma].intercalate (items.map tokensOf)) := by
  cases items with
  | nil => exact Closed.nil.written
  | cons first items =>
    rw [List.map_cons, List.map_cons, intercalate_cons, intercalate_cons]
    induction items generalizing first with
    | nil => simpa using h first List.mem_cons_self
    | cons second items ih =>
      have hfirst := h first List.mem_cons_self
      have hrest := ih second fun item hitem => h item (List.mem_cons_of_mem _ hitem)
      have hboth := (hfirst.append_closed hne hstops hsep).append_written hrest
      simpa using hboth

/-! ## Texts between quotes -/

/-- The pieces that a character is read from: itself, or its number unless that is half of a
pair. -/
inductive Piece.Spells : Piece → Char → Prop
  | char (c : Char) : Spells (.char c) c
  | unit {c : Char} (hc : c.toNat < 0xD800) : Spells (.unit c.toNat) c

theorem joinPieces_eq {parts : List Piece} (h : List.Forall₂ Piece.Spells parts chars) :
    joinPieces parts = some chars := by
  induction h with
  | nil => rfl
  | cons hpart hparts ih =>
    cases hpart with
    | char c => rw [joinPieces, ih, Option.map_some]
    | unit hc =>
      rename_i c parts chars
      have hchar : (some chars).map (Char.ofNat c.toNat :: ·) = some (c :: chars) := by
        rw [Char.ofNat_toNat, Option.map_some]
      -- a number below the surrogates has no partner, whatever the next piece is
      cases parts with
      | nil => rw [joinPieces, if_neg (by simp; omega), ih, hchar]; simp
      | cons part parts =>
        cases part with
        | char c' => rw [joinPieces, if_neg (by simp; omega), ih, hchar]; simp
        | unit code => rw [joinPieces, if_neg (by simp; omega), if_neg (by simp; omega), ih, hchar]

theorem unitCode?_hexDigit {n : Nat} (h : n < 0x20) :
    unitCode? '0' '0' (hexDigit (n / 16)) (hexDigit (n % 16)) = some n := by
  revert n
  decide

/-- A written character is read as one piece. -/
theorem exists_pieces_escape (c : Char) (rest : List Char) :
    ∃ part, Piece.Spells part c ∧
      pieces (escape c ++ rest) = (pieces rest).map fun (more, left) => (part :: more, left) := by
  unfold escape
  split
  case h_8 =>
    rename_i hquote hbackslash _ _ _ _ _
    split
    case isTrue hcontrol =>
      refine ⟨.unit c.toNat, .unit (by omega), ?_⟩
      simp only [List.cons_append, List.nil_append]
      rw [pieces, unitCode?_hexDigit hcontrol]
      cases pieces rest <;> rfl
    case isFalse hcontrol =>
      refine ⟨.char c, .char c, ?_⟩
      have hother : (decide (c.toNat < 0x20) || c == '\\') = false := by
        simpa [hcontrol] using hbackslash
      simp only [List.cons_append, List.nil_append]
      rw [pieces, if_neg (by simp [hother])]
      · cases pieces rest <;> rfl
      · exact hquote
      · rintro a b c' d rest' rfl
        exact absurd rfl hbackslash
      · rintro e rest' rfl
        exact absurd rfl hbackslash
  all_goals
    refine ⟨.char _, .char _, ?_⟩
    simp only [List.cons_append, List.nil_append]
    rw [pieces]
    · cases pieces rest <;> rfl
    · simp

/-- Written characters are read as one piece each, up to the closing quote. -/
theorem exists_pieces_flatMap (chars rest : List Char) :
    ∃ parts, List.Forall₂ Piece.Spells parts chars ∧
      pieces (chars.flatMap escape ++ '"' :: rest) = some (parts, rest) := by
  induction chars with
  | nil => exact ⟨[], .nil, by rw [List.flatMap_nil, List.nil_append, pieces]⟩
  | cons c chars ih =>
    obtain ⟨parts, hparts, hrest⟩ := ih
    obtain ⟨part, hpart, hfirst⟩ := exists_pieces_escape c (chars.flatMap escape ++ '"' :: rest)
    refine ⟨part :: parts, .cons hpart hparts, ?_⟩
    rw [List.flatMap_cons, List.append_assoc, hfirst, hrest, Option.map_some]

/-- **A text between quotes is read again**, with all of its escapes. -/
theorem unquote_escape (value : String) (rest : List Char) :
    unquote (value.toList.flatMap escape ++ '"' :: rest) = some (value, rest) := by
  obtain ⟨parts, hparts, hread⟩ := exists_pieces_flatMap value.toList rest
  rw [unquote, hread]
  simp [joinPieces_eq hparts]

theorem closed_quoted (value : String) : Closed (quoted value).toList [.text value] := by
  intro rest more hrest
  have hquoted : (quoted value).toList ++ rest =
      '"' :: (value.toList.flatMap escape ++ '"' :: rest) := by
    simp [quoted]
  rw [hquoted]
  refine .token rfl ?_ ?_ hrest
  · rw [scanToken, unquote_escape]
    rfl
  · simp
    omega

/-! ## Numbers -/

theorem hexValue?_of_isDigit (h : c.isDigit = true) :
    Text.hexValue? c = some (c.toNat - '0'.toNat) := by
  have hrange : ('0' ≤ c && c ≤ '9') = true := by
    simp only [Char.isDigit, Bool.and_eq_true, decide_eq_true_eq] at h ⊢
    exact h
  rw [Text.hexValue?, if_pos hrange]

/-- Decimal digits spell the same number as in the standard library. -/
theorem foldl_hexValue? {digits : List Char} (h : ∀ c ∈ digits, c.isDigit = true) (value : Nat) :
    digits.foldl (fun value c => 10 * value + (Text.hexValue? c).getD 0) value =
      Nat.ofDigitChars 10 digits value := by
  induction digits generalizing value with
  | nil => rfl
  | cons c digits ih =>
    obtain ⟨hc, hdigits⟩ := List.forall_mem_cons.mp h
    rw [List.foldl_cons, hexValue?_of_isDigit hc, ih hdigits, Nat.ofDigitChars_cons,
      Option.getD_some]

theorem isDigit_of_mem_toDigits {n : Nat} (h : c ∈ Nat.toDigits 10 n) : c.isDigit = true :=
  Nat.isDigit_of_mem_toDigits (by decide) le_rfl h

theorem decimalValue_toDigits (n : Nat) : Text.decimalValue (Nat.toDigits 10 n) = n := by
  rw [Text.decimalValue, Text.valueIn, foldl_hexValue? fun c => isDigit_of_mem_toDigits]
  exact Nat.ofDigitChars_ten_toDigits

/-- A number other than zero does not begin with the digit zero. -/
theorem head?_toDigits_ne {n : Nat} (h : 0 < n) : (Nat.toDigits 10 n).head? ≠ some '0' := by
  induction n using Nat.strong_induction_on with
  | h n ih =>
    rw [Nat.toDigits_eq_if (by decide)]
    split
    case isTrue hlt =>
      have hdigit : ∀ n < 10, 0 < n → n.digitChar ≠ '0' := by decide
      simpa using hdigit n hlt h
    case isFalse hge =>
      rw [List.head?_append_of_ne_nil _ Nat.toDigits_ne_nil]
      exact ih (n / 10) (Nat.div_lt_self h (by decide)) (Nat.div_pos (by omega) (by decide))

theorem spanDigits_append {digits : List Char} (h : ∀ c ∈ digits, c.isDigit = true)
    (hstops : Stops rest) : Text.spanDigits (digits ++ rest) = (digits, rest) := by
  have hrest : rest.takeWhile Char.isDigit = [] ∧ rest.dropWhile Char.isDigit = rest := by
    cases rest with
    | nil => exact ⟨rfl, rfl⟩
    | cons c rest =>
      have hc := (hstops c rfl).1
      simp [hc]
  rw [Text.spanDigits, List.takeWhile_append_of_pos h, List.dropWhile_append_of_pos h, hrest.1,
    hrest.2, List.append_nil]

theorem scanWhole_toDigits (n : Nat) (hstops : Stops rest) :
    scanWhole (Nat.toDigits 10 n ++ rest) = some (Nat.toDigits 10 n, rest) := by
  have hspan := spanDigits_append (fun c => isDigit_of_mem_toDigits (n := n)) hstops
  unfold scanWhole
  rw [hspan]
  split
  · rename_i heq
    exact absurd (Prod.mk.inj heq).1 Nat.toDigits_ne_nil
  · rename_i c digits left heq
    have hdigits := (Prod.mk.inj heq).1
    rcases Nat.eq_zero_or_pos n with rfl | hpos
    · simp at hdigits
    · exact absurd (by rw [hdigits]; rfl) (head?_toDigits_ne hpos)
  · rename_i heq
    obtain ⟨hdigits, hrest⟩ := Prod.mk.inj heq
    rw [hdigits, hrest]

theorem scanNumeral_toDigits (n : Nat) (hstops : Stops rest) :
    scanNumeral (Nat.toDigits 10 n ++ rest) =
      some (⟨false, Nat.toDigits 10 n, none, none⟩, rest) := by
  have hfraction : scanFraction rest = some (none, rest) := by
    unfold scanFraction
    split
    · exact absurd rfl (hstops '.' rfl).2.1
    · rfl
  have hexponent : scanExponent rest = some (none, rest) := by
    cases rest with
    | nil => rfl
    | cons c rest =>
      obtain ⟨-, -, he, hE⟩ := hstops c rfl
      simp [scanExponent, he, hE]
  have hsign : ∀ tail, Nat.toDigits 10 n ++ rest ≠ '-' :: tail := by
    intro tail heq
    obtain ⟨c, digits, hdigits⟩ := List.exists_cons_of_ne_nil (@Nat.toDigits_ne_nil n 10)
    rw [hdigits] at heq
    obtain ⟨rfl, -⟩ := List.cons.inj heq
    have hmem : '-' ∈ Nat.toDigits 10 n := hdigits ▸ List.mem_cons_self
    exact absurd (isDigit_of_mem_toDigits hmem) (by decide)
  unfold scanNumeral
  split
  rename_i negative chars hchars
  have hunsigned : negative = false ∧ chars = Nat.toDigits 10 n ++ rest := by
    split at hchars
    · rename_i tail heq
      exact absurd heq (hsign tail)
    · obtain ⟨rfl, rfl⟩ := Prod.mk.inj hchars
      exact ⟨rfl, rfl⟩
  obtain ⟨rfl, rfl⟩ := hunsigned
  simp [scanWhole_toDigits n hstops, hfraction, hexponent]

/-- **A number is read again** in front of what cannot go on with it. -/
theorem written_number {n : Nat} (hfits : Word.fits 64 n = true) :
    Written (toString n).toList [.scalar (.integer n)] := by
  intro rest more hstops hrest
  rw [Nat.toString_eq_ofList_toDigits, String.toList_ofList]
  obtain ⟨c, digits, hdigits⟩ := List.exists_cons_of_ne_nil (@Nat.toDigits_ne_nil n 10)
  have hmem : c ∈ Nat.toDigits 10 n := hdigits ▸ List.mem_cons_self
  have hdigit := isDigit_of_mem_toDigits hmem
  have hscalar : scanScalar (c :: (digits ++ rest)) = some (.integer n, rest) := by
    have hnumeral := scanNumeral_toDigits n hstops
    rw [hdigits, List.cons_append] at hnumeral
    unfold scanScalar
    split
    case h_4 =>
      rw [hnumeral]
      simp [Numeral.value?, ← hdigits, decimalValue_toDigits, hfits]
    all_goals
      rename_i heq
      obtain ⟨rfl, -⟩ := List.cons.inj heq
      exact absurd hdigit (by decide)
  rw [hdigits, List.cons_append]
  refine .token ?_ ?_ ?_ hrest
  · refine Bool.eq_false_iff.mpr fun hspace => ?_
    simp only [isSpace, Bool.or_eq_true, beq_iff_eq] at hspace
    rcases hspace with ((rfl | rfl) | rfl) | rfl <;> exact absurd hdigit (by decide)
  · unfold scanToken
    split
    case h_8 => rw [hscalar]; rfl
    all_goals exact absurd hdigit (by decide)
  · simp

/-! ## Written values -/

theorem itemLexemes_eq (items : List Json) : itemLexemes items = items.map lexemes := by
  induction items with
  | nil => rfl
  | cons item items ih => rw [itemLexemes, ih, List.map_cons]

theorem memberLexemes_eq (members : List (String × Json)) : memberLexemes members =
    members.map fun (name, value) => .text name :: .colon :: lexemes value := by
  induction members with
  | nil => rfl
  | cons member members ih => rw [memberLexemes, ih, List.map_cons]

theorem closed_openSequence : Closed "[".toList [.openSequence] :=
  (by decide : "[".toList = ['[']) ▸ closed_token rfl fun _ => rfl

theorem closed_closeSequence : Closed "]".toList [.closeSequence] :=
  (by decide : "]".toList = [']']) ▸ closed_token rfl fun _ => rfl

theorem closed_openTable : Closed "\x7b".toList [.openTable] :=
  (by decide : "\x7b".toList = ['{']) ▸ closed_token rfl fun _ => rfl

theorem closed_closeTable : Closed "\x7d".toList [.closeTable] :=
  (by decide : "\x7d".toList = ['}']) ▸ closed_token rfl fun _ => rfl

theorem closed_comma : Closed [','] [.comma] := closed_token rfl fun _ => rfl

theorem closed_colon : Closed [':'] [.colon] := closed_token rfl fun _ => rfl

theorem stops_cons (hdigit : c.isDigit = false) (hpoint : c ≠ '.') (he : c ≠ 'e') (hE : c ≠ 'E') :
    Stops (c :: rest) := by
  rintro _ ⟨⟩
  exact ⟨hdigit, hpoint, he, hE⟩

theorem closed_null : Closed "null".toList [.scalar .null] :=
  (by decide : "null".toList = ['n', 'u', 'l', 'l']) ▸ closed_token rfl fun _ => rfl

theorem closed_true : Closed "true".toList [.scalar (.boolean true)] :=
  (by decide : "true".toList = ['t', 'r', 'u', 'e']) ▸ closed_token rfl fun _ => rfl

theorem closed_false : Closed "false".toList [.scalar (.boolean false)] :=
  (by decide : "false".toList = ['f', 'a', 'l', 's', 'e']) ▸ closed_token rfl fun _ => rfl

/-! ### On one line -/

theorem compactItems_eq (items : List Json) : compactItems items = items.map compact := by
  induction items with
  | nil => rfl
  | cons item items ih => rw [compactItems, ih, List.map_cons]

theorem compactMembers_eq (members : List (String × Json)) : compactMembers members =
    members.map fun (name, value) => quoted name ++ ":" ++ compact value := by
  induction members with
  | nil => rfl
  | cons member members ih => rw [compactMembers, ih, List.map_cons]

/-- A body between two brackets. -/
theorem Written.between {opening closing : List Char} {openToken closeToken : Token}
    (h : Written part ts) (hopen : Closed opening [openToken])
    (hclose : Closed closing [closeToken]) (hne : closing ≠ []) (hstops : Stops closing) :
    Written (opening ++ (part ++ closing)) (openToken :: (ts ++ [closeToken])) :=
  (hopen.append (h.append_closed hne hstops hclose)).written

/-- **A value on one line** has its own tokens. -/
theorem written_compact {depth : Nat} (h : Readable depth value) :
    Written value.compact.toList value.lexemes := by
  have hcomma : Stops [','] := stops_cons rfl (by decide) (by decide) (by decide)
  induction h with
  | null => exact closed_null.written
  | boolean value =>
    cases value with
    | true => exact closed_true.written
    | false => exact closed_false.written
  | number hfits => exact written_number hfits
  | text value => exact (closed_quoted value).written
  | array _ ih =>
    rename_i items _
    have hbody := written_intercalate (List.cons_ne_nil _ _) hcomma closed_comma ih
    have hboth := hbody.between closed_openSequence closed_closeSequence (List.cons_ne_nil _ _)
      (stops_cons rfl (by decide) (by decide) (by decide))
    simpa [compact, lexemes, compactItems_eq, itemLexemes_eq, String.toList_intercalate,
      Function.comp_def] using hboth
  | object _ ih =>
    rename_i members _
    have hmembers : ∀ member ∈ members,
        Written ((quoted member.1).toList ++ [':'] ++ member.2.compact.toList)
          (.text member.1 :: .colon :: member.2.lexemes) := fun member hmember =>
      ((closed_quoted member.1).append closed_colon).append_written (ih member hmember)
    have hbody := written_intercalate (List.cons_ne_nil _ _) hcomma closed_comma hmembers
    have hboth := hbody.between closed_openTable closed_closeTable (List.cons_ne_nil _ _)
      (stops_cons rfl (by decide) (by decide) (by decide))
    simpa [compact, lexemes, compactMembers_eq, memberLexemes_eq, String.toList_intercalate,
      Function.comp_def] using hboth

/-! ### Over several lines -/

theorem prettyItems_eq (level : Nat) (items : List Json) :
    prettyItems level items = items.map (prettyAt level) := by
  induction items with
  | nil => rfl
  | cons item items ih => rw [prettyItems, ih, List.map_cons]

theorem prettyMembers_eq (level : Nat) (members : List (String × Json)) :
    prettyMembers level members =
      members.map fun (name, value) => quoted name ++ ": " ++ prettyAt level value := by
  induction members with
  | nil => rfl
  | cons member members ih => rw [prettyMembers, ih, List.map_cons]

theorem toList_pushn (c : Char) (n : Nat) : ("".pushn c n).toList = List.replicate n c := by
  have hrepeat : ∀ n, (Nat.repeat (fun text : String => text.push c) n "").toList =
      List.replicate n c := by
    intro n
    induction n with
    | zero => rfl
    | succ n ih => rw [Nat.repeat, String.toList_push, ih, List.replicate_succ']
  exact hrepeat n

/-- **Lines between two brackets**, each with its own tokens. -/
theorem written_block {ι : Type} {opening closing : String} {openToken closeToken : Token}
    {lines : ι → String} {tokensOf : ι → List Token} {items : List ι} (level : Nat)
    (hopen : Closed opening.toList [openToken]) (hclose : Closed closing.toList [closeToken])
    (h : ∀ item ∈ items, Written (lines item).toList (tokensOf item)) :
    Written (block level opening closing (items.map lines)).toList
      (openToken :: ([.comma].intercalate (items.map tokensOf) ++ [closeToken])) := by
  have hbreak : Closed ['\n'] [] := closed_blanks (by simp [isSpace])
  have hindent : Closed (List.replicate (2 * level) ' ') [] :=
    closed_blanks fun c hc => by rw [List.eq_of_mem_replicate hc]; rfl
  have hstep : Closed [' ', ' '] [] := closed_blanks (by simp [isSpace])
  cases items with
  | nil => simpa [block] using (hopen.append hclose).written
  | cons first items =>
    have hlines : ∀ item ∈ first :: items,
        Written (List.replicate (2 * level) ' ' ++ [' ', ' '] ++ (lines item).toList)
          (tokensOf item) := fun item hitem => (hindent.append hstep).append_written (h item hitem)
    have hbody := written_intercalate (List.cons_ne_nil ',' ['\n'])
      (stops_cons rfl (by decide) (by decide) (by decide)) (closed_comma.append hbreak) hlines
    have hboth := hbody.between (hopen.append hbreak) ((hbreak.append hindent).append hclose)
      (by simp) (stops_cons rfl (by decide) (by decide) (by decide))
    simpa [block, toList_pushn, String.toList_intercalate, Function.comp_def,
      -String.intercalate_cons_append] using hboth

/-- A value over several lines has its own tokens, at any level of indentation. -/
theorem written_prettyAt {depth : Nat} (h : Readable depth value) (level : Nat) :
    Written (value.prettyAt level).toList value.lexemes := by
  induction h generalizing level with
  | null => exact closed_null.written
  | boolean value =>
    cases value with
    | true => exact closed_true.written
    | false => exact closed_false.written
  | number hfits => exact written_number hfits
  | text value => exact (closed_quoted value).written
  | array _ ih =>
    rw [prettyAt, lexemes, prettyItems_eq, itemLexemes_eq]
    exact written_block level closed_openSequence closed_closeSequence
      fun item hitem => ih item hitem (level + 1)
  | object _ ih =>
    rename_i members _
    rw [prettyAt, lexemes, prettyMembers_eq, memberLexemes_eq]
    refine written_block level closed_openTable closed_closeTable fun member hmember => ?_
    have hblank : Closed [' '] [] := closed_blanks (by simp [isSpace])
    have hname := ((closed_quoted member.1).append closed_colon).append hblank
    simpa using hname.append_written (ih member hmember (level + 1))

/-- **A value over several lines** has its own tokens. -/
theorem written_pretty {depth : Nat} (h : Readable depth value) :
    Written value.pretty.toList value.lexemes := written_prettyAt h 0

end SchemaEvolution.Json

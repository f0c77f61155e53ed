import SchemaEvolution.Document.Json.Reader
import SchemaEvolution.Proofs.JsonTokens

/-!
# Reading JSON values that are written

The reader goes through the tokens of a value with the open sequences and tables on a stack. From
wherever a value may begin, its tokens lead to where the whole value has been delivered to the
innermost frame, and the stack is as before. So a document holds what was written in it, whether on
one line or over several.

## Main definitions

* `Json.reading`: what is read of a value

## Main results

* `Json.run_lexemes`: the tokens of a value deliver it to the frames around it
* `Json.read_compact`, `Json.read_pretty`: a written value is read again, to its end
-/

namespace SchemaEvolution.Json

variable {depth : Nat} {value : Json}

/-! ## What is read -/

mutual

/-- **What is read of a value.** -/
def reading : Json → Reading
  | null => .null
  | boolean value => .boolean value
  | number value => .integer value
  | text value => .text value
  | array items => .sequence (itemReadings items) true
  | object members => .table (memberReadings members) true

/-- What is read of items. -/
def itemReadings : List Json → List Reading
  | [] => []
  | item :: rest => reading item :: itemReadings rest

/-- What is read of members. -/
def memberReadings : List (String × Json) → List (String × Reading)
  | [] => []
  | (name, value) :: rest => (name, reading value) :: memberReadings rest

end

theorem itemReadings_eq (items : List Json) : itemReadings items = items.map reading := by
  induction items with
  | nil => rfl
  | cons item items ih => rw [itemReadings, ih, List.map_cons]

theorem memberReadings_eq (members : List (String × Json)) :
    memberReadings members = members.map fun (name, value) => (name, reading value) := by
  induction members with
  | nil => rfl
  | cons member members ih => rw [memberReadings, ih, List.map_cons]

@[simp] theorem reading_array (items : List Json) :
    (array items).reading = .sequence (items.map reading) true := by
  rw [reading, itemReadings_eq]

@[simp] theorem reading_object (members : List (String × Json)) :
    (object members).reading =
      .table (members.map fun (name, value) => (name, reading value)) true := by
  rw [reading, memberReadings_eq]

theorem allWhole_of_forall {items : List Reading} (h : ∀ item ∈ items, item.isWhole = true) :
    Reading.allWhole items = true := by
  induction items with
  | nil => rfl
  | cons item items ih =>
    obtain ⟨hitem, hitems⟩ := List.forall_mem_cons.mp h
    rw [Reading.allWhole, hitem, ih hitems, Bool.and_self]

theorem membersWhole_of_forall {members : List (String × Reading)}
    (h : ∀ member ∈ members, member.2.isWhole = true) : Reading.membersWhole members = true := by
  induction members with
  | nil => rfl
  | cons member members ih =>
    obtain ⟨hmember, hmembers⟩ := List.forall_mem_cons.mp h
    rw [Reading.membersWhole, hmember, ih hmembers, Bool.and_self]

/-- What is read of a value is whole. -/
theorem isWhole_reading (h : Readable depth value) : value.reading.isWhole = true := by
  induction h with
  | null => rfl
  | boolean => rfl
  | number => rfl
  | text => rfl
  | array _ ih =>
    rw [reading_array, Reading.isWhole, Bool.and_true]
    exact allWhole_of_forall (List.forall_mem_map.mpr ih)
  | object _ ih =>
    rw [reading_object, Reading.isWhole, Bool.and_true]
    exact membersWhole_of_forall (List.forall_mem_map.mpr ih)

/-! ## Delivering a value -/

/-- The reader behind some tokens. -/
def run (tokens : List Token) (state : State) : State := tokens.foldl State.step state

@[simp] theorem run_nil (state : State) : run [] state = state := rfl

@[simp] theorem run_cons (token : Token) (tokens : List Token) (state : State) :
    run (token :: tokens) state = run tokens (state.step token) := rfl

@[simp] theorem run_append (tokens tokens' : List Token) (state : State) :
    run (tokens ++ tokens') state = run tokens' (run tokens state) := List.foldl_append

/-- **The tokens of a value deliver it** wherever there is room to nest it. -/
def Delivers (depth : Nat) (value : Json) : Prop :=
  ∀ frames, frames.length + depth ≤ State.depthLimit →
    run value.lexemes (.atValue frames) = .deliver value.reading frames

/-- The first token of a value ends no sequence. -/
theorem exists_lexemes_eq (value : Json) :
    ∃ token ts, value.lexemes = token :: ts ∧ token ≠ .closeSequence := by
  cases value <;> exact ⟨_, _, rfl, nofun⟩

/-- The first item of a sequence is read like any other value. -/
theorem run_atFirstItem (value : Json) (frames : List Frame) :
    run value.lexemes (.atFirstItem frames) =
      run value.lexemes (.atValue (.sequence [] :: frames)) := by
  obtain ⟨token, ts, hlexemes, hne⟩ := exists_lexemes_eq value
  have hstep : State.step (.atFirstItem frames) token =
      State.step (.atValue (.sequence [] :: frames)) token := by
    cases token <;> first | rfl | exact absurd rfl hne
  rw [hlexemes, run_cons, run_cons, hstep]

/-- Items behind others join them in the innermost sequence. -/
theorem run_items {items : List Json} (h : ∀ item ∈ items, Delivers depth item)
    (done : List Reading) {frames : List Frame}
    (hroom : frames.length + (depth + 1) ≤ State.depthLimit) :
    run ((items.map lexemes).flatMap ([.comma] ++ ·)) (.atSeparator (.sequence done) frames) =
      .atSeparator (.sequence ((items.map reading).reverse ++ done)) frames := by
  induction items generalizing done with
  | nil => rfl
  | cons item items ih =>
    obtain ⟨hitem, hitems⟩ := List.forall_mem_cons.mp h
    have hjoin : run ([.comma] ++ item.lexemes) (.atSeparator (.sequence done) frames) =
        .atSeparator (.sequence (item.reading :: done)) frames :=
      hitem (.sequence done :: frames) (by rw [List.length_cons]; omega)
    rw [List.map_cons, List.flatMap_cons, run_append, hjoin, ih hitems, List.map_cons,
      List.reverse_cons, List.append_assoc, List.singleton_append]

/-- Members behind others join them in the innermost table. -/
theorem run_members {members : List (String × Json)}
    (h : ∀ member ∈ members, Delivers depth member.2) (done : List (String × Reading))
    (name : String) {frames : List Frame} (hroom : frames.length + (depth + 1) ≤ State.depthLimit) :
    ∃ last, run ((members.map fun (name, value) => .text name :: .colon :: lexemes value).flatMap
        ([.comma] ++ ·)) (.atSeparator (.table done name) frames) =
      .atSeparator
        (.table ((members.map fun (name, value) => (name, reading value)).reverse ++ done) last)
        frames := by
  induction members generalizing done name with
  | nil => exact ⟨name, rfl⟩
  | cons member members ih =>
    obtain ⟨hmember, hmembers⟩ := List.forall_mem_cons.mp h
    obtain ⟨last, hlast⟩ := ih hmembers ((member.1, member.2.reading) :: done) member.1
    have hjoin : run ([.comma] ++ .text member.1 :: .colon :: member.2.lexemes)
          (.atSeparator (.table done name) frames) =
        .atSeparator (.table ((member.1, member.2.reading) :: done) member.1) frames :=
      hmember (.table done member.1 :: frames) (by rw [List.length_cons]; omega)
    refine ⟨last, ?_⟩
    rw [List.map_cons, List.flatMap_cons, run_append, hjoin, hlast, List.map_cons,
      List.reverse_cons, List.append_assoc, List.singleton_append]

/-- **The tokens of a value deliver it to the frames around it**, if there is room for its
depth. -/
theorem run_lexemes (h : Readable depth value) : Delivers depth value := by
  induction h with
  | null => exact fun frames _ => rfl
  | boolean => exact fun frames _ => rfl
  | number => exact fun frames _ => rfl
  | text => exact fun frames _ => rfl
  | array _ ih =>
    rename_i depth items _
    intro frames hroom
    have hopen : State.step (.atValue frames) .openSequence = .atFirstItem frames := by
      simp only [State.step, State.begin]
      rw [if_pos (by omega)]
    rw [lexemes, itemLexemes_eq, run_cons, hopen, reading_array]
    cases items with
    | nil => rfl
    | cons first items =>
      obtain ⟨hfirst, hitems⟩ := List.forall_mem_cons.mp ih
      have hdelivered : run first.lexemes (.atFirstItem frames) =
          .atSeparator (.sequence [first.reading]) frames :=
        (run_atFirstItem first frames).trans
          (hfirst (.sequence [] :: frames) (by rw [List.length_cons]; omega))
      rw [List.map_cons, intercalate_cons, run_append, run_append, hdelivered,
        run_items hitems _ hroom]
      simp [State.step]
  | object _ ih =>
    rename_i depth members _
    intro frames hroom
    have hopen : State.step (.atValue frames) .openTable = .atFirstName frames := by
      simp only [State.step, State.begin]
      rw [if_pos (by omega)]
    rw [lexemes, memberLexemes_eq, run_cons, hopen, reading_object]
    cases members with
    | nil => rfl
    | cons first members =>
      obtain ⟨hfirst, hmembers⟩ := List.forall_mem_cons.mp ih
      have hdelivered : run (.text first.1 :: .colon :: first.2.lexemes) (.atFirstName frames) =
          .atSeparator (.table [(first.1, first.2.reading)] first.1) frames :=
        hfirst (.table [] first.1 :: frames) (by rw [List.length_cons]; omega)
      obtain ⟨last, hlast⟩ := run_members hmembers [(first.1, first.2.reading)] first.1 hroom
      rw [List.map_cons, intercalate_cons, run_append, run_append, hdelivered, hlast]
      simp [State.step]

/-! ## Written values -/

/-- A text with the tokens of a value is read as the value. -/
theorem read_of_written {text : String} (h : Readable State.depthLimit value)
    (hwritten : Written text.toList value.lexemes) : read text = ⟨value.reading, true⟩ := by
  have hlexes : Lexes (text.toList ++ []) (value.lexemes ++ []) := hwritten nofun .nil
  rw [List.append_nil, List.append_nil] at hlexes
  have hrun := run_lexemes h [] (by simp)
  rw [run] at hrun
  rw [read, hlexes.tokens_eq, hrun]
  rfl

/-- **A value that is written on one line is read again.** -/
theorem read_compact (h : Readable State.depthLimit value) :
    read value.compact = ⟨value.reading, true⟩ :=
  read_of_written h (written_compact h)

/-- **A value that is written over several lines is read again.** -/
theorem read_pretty (h : Readable State.depthLimit value) :
    read value.pretty = ⟨value.reading, true⟩ :=
  read_of_written h (written_pretty h)

end SchemaEvolution.Json

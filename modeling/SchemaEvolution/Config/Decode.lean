import SchemaEvolution.Config
import SchemaEvolution.Document.Decoding
import SchemaEvolution.Document.Json.Reader
import SchemaEvolution.Document.Toml.Reader

/-!
# Decoding schemas

The shapes of a schema's parts and how a document is decoded into them. Unknown names are refused
everywhere but in transformations, where they are ignored; a transformation is read to its end
before its fields are decoded, its kind excepted.

## Main definitions

* `Decoder.transformation`: a transformation
* `Decoder.config`: a whole schema
* `Config.ofDocument`: the schema that a document holds
* `Document.ofText`, `Config.ofText`: the document and the schema that a text holds
-/

namespace SchemaEvolution

namespace Decoder

/-! ## Transformations -/

/-- The fields of a transformation, whatever its kind. -/
structure StepDraft where
  type : String := ""
  source : String := ""
  target : String := ""
  fieldType : String := ""
  code : String := ""
  context : List String := []
  index : Option Nat := none

/-- The transformation of a kind with the given fields. -/
def StepDraft.step (draft : StepDraft) : ChangeKind → StepConfig
  | .move => ⟨draft.type, .move draft.source draft.target draft.index⟩
  | .insert =>
    ⟨draft.type, .insert draft.target draft.fieldType draft.code draft.context draft.index⟩
  | .remove => ⟨draft.type, .remove draft.source⟩
  | .convert => ⟨draft.type, .convert draft.source draft.fieldType draft.code draft.context⟩

/-- The name of the member that tells the kind of a transformation. -/
def kindField : String := "kind"

/-- The kinds of transformations, in the order in which messages list them. -/
def changeKinds : List ChangeKind := [.move, .insert, .remove, .convert]

/-- What messages call the record of a kind of transformation. -/
def variantTitle : ChangeKind → String
  | .move => "struct variant TransformationConfig::Move"
  | .insert => "struct variant TransformationConfig::Insert"
  | .remove => "struct variant TransformationConfig::Remove"
  | .convert => "struct variant TransformationConfig::Convert"

/-- The fields of a kind of transformation, in the order of their declaration. -/
def variantFields : ChangeKind → List (Field StepDraft)
  | .move => [typeField, sourceField, targetField, indexField]
  | .insert =>
    [typeField, targetField, introducedField "field_type", codeField "initializer",
      contextField, indexField]
  | .remove => [typeField, sourceField]
  | .convert =>
    [typeField, sourceField, introducedField "new_type", codeField "converter", contextField]
where
  typeField := .of "type" true text fun value draft => { draft with type := value }
  sourceField := .of "from" true text fun value draft => { draft with source := value }
  targetField := .of "to" true text fun value draft => { draft with target := value }
  introducedField name := .of name true text fun value draft => { draft with fieldType := value }
  codeField name := .of name true text fun value draft => { draft with code := value }
  contextField :=
    .of "context" false (list text) fun value draft => { draft with context := value }
  indexField :=
    .of "index" false (optional place) fun value draft => { draft with index := value }

/-- The shape of a kind of transformation. -/
def variantShape (kind : ChangeKind) : Shape StepDraft where
  title := variantTitle kind
  fields := variantFields kind
  strangers := .ignored
  surplus := .counted

/-- The kind of a transformation. -/
def kind : Decoder ChangeKind
  | .text word =>
    match changeKinds.find? fun kind => kind.word == word with
    | some kind => .ok kind
    | none => .error (.unknownVariant word (changeKinds.map ChangeKind.word))
  | other => mismatch "variant identifier" other

/-- The kind among the members of a transformation, and the other members, all of which are
read to their end. -/
def splitKind (whole : Bool) :
    List (String × Reading) → Option ChangeKind →
      Except DecodeFault (ChangeKind × List (String × Reading))
  | [], found =>
    if !whole then .error .illFormed
    else
      match found with
      | some kind => .ok (kind, [])
      | none => .error (.missingField kindField)
  | (name, reading) :: rest, found =>
    if name = kindField then
      if found.isSome then .error (.duplicateField kindField)
      else
        match kind reading with
        | .error fault => .error fault
        | .ok kind => splitKind whole rest (some kind)
    else if !reading.isWhole then .error .illFormed
    else (splitKind whole rest found).map fun (kind, others) => (kind, (name, reading) :: others)

/-- **A transformation**: a table with its kind and its fields, or a sequence of them, the
kind first. -/
def transformation : Decoder StepConfig
  | .table members whole => do
    let (kind, others) ← splitKind whole members none
    let draft ← record (variantShape kind) {} (.table others true)
    return draft.step kind
  | .sequence [] whole => .error (if whole then .missingField kindField else .illFormed)
  | .sequence (first :: rest) whole => do
    let kind ← kind first
    if !(Reading.sequence rest whole).isWhole then throw .illFormed
    let draft ← record (variantShape kind) {} (.sequence rest true)
    return draft.step kind
  | other => mismatch "internally tagged enum TransformationConfig" other

/-! ## Sections -/

/-- In a JSON document a record that is written as a sequence ends with its last field; in a
TOML document whatever follows is ignored. -/
def surplusOf : DocumentFormat → Surplus
  | .json => .ill
  | .toml => .ignored

variable (format : DocumentFormat)

/-- An interface. -/
def interface : Decoder InterfaceConfig :=
  record {
    title := "struct InterfaceConfig"
    fields := [
      .of "extends" false (list text) fun value record => { record with extended := value },
      .of "fields" false (mapping text) fun value record => { record with fields := value }]
    strangers := .refused
    surplus := surplusOf format } {}

/-- A base type. -/
def baseType : Decoder BaseTypeConfig :=
  record {
    title := "struct BaseTypeConfig"
    fields := [
      .of "implements" false (list text) fun value record => { record with implemented := value },
      .of "fields" false (mapping text) fun value record => { record with fields := value }]
    strangers := .refused
    surplus := surplusOf format } {}

/-- A custom type. -/
def customType : Decoder CustomTypeConfig :=
  record {
    title := "struct CustomTypeConfig"
    fields := [
      .of "class" true text fun value record => { record with representation := value },
      .of "serializer" true text fun value record => { record with serializer := value }]
    strangers := .refused
    surplus := surplusOf format } {}

/-- A version. -/
def version : Decoder VersionConfig :=
  record {
    title := "struct VersionConfig"
    fields := [
      .of "previous" false (optional text) fun value record => { record with previous := value },
      .of "transformations" false (list transformation) fun value record =>
        { record with transformations := value },
      .of "changelog" false (optional text) fun value record =>
        { record with changelog := value }]
    strangers := .refused
    surplus := surplusOf format } {}

/-- **A schema.** -/
def config : Decoder Config :=
  record {
    title := "struct SchemaConfig"
    fields := [
      .of "current_version" true text fun value record =>
        { record with currentVersion := value },
      .of "interfaces" false (mapping (interface format)) fun value record =>
        { record with interfaces := value },
      .of "base_types" false (mapping (baseType format)) fun value record =>
        { record with baseTypes := value },
      .of "super_types" false (mapping (list text)) fun value record =>
        { record with superTypes := value },
      .of "custom_types" false (mapping (customType format)) fun value record =>
        { record with customTypes := value },
      .of "versions" true (mapping (version format)) fun value record =>
        { record with versions := value }]
    strangers := .refused
    surplus := surplusOf format } {}

end Decoder

/-- The schema that a document holds. What follows the document is looked at last. -/
def Config.ofDocument (format : DocumentFormat) (document : Document) :
    Except DecodeFault Config := do
  let config ← Decoder.config format document.root
  if document.ended then return config else throw .illFormed

/-- The document that a text in a notation holds. -/
def Document.ofText (format : DocumentFormat) (text : String) : Document :=
  match format with
  | .json => Json.read text
  | .toml => Toml.read text

/-- **The schema that a text in a notation holds.** -/
def Config.ofText (format : DocumentFormat) (text : String) : Except DecodeFault Config :=
  Config.ofDocument format (Document.ofText format text)

end SchemaEvolution

import SchemaEvolution.Compilation
import SchemaEvolution.Json.Value

/-!
# The summary of a schema

What a check of a schema reports: its versions with the number of their transformations and
of the types that change behind them, and the numbers of nodes, upgrade paths and code
references.

## Main definitions

* `Summary`, `Compilation.summary`: the figures
* `Summary.text`, `Summary.json`: how they are written
* `padRight`: a text in a column
-/

namespace SchemaEvolution

/-- A text with blanks behind it up to a width, counted in characters. -/
def padRight (width : Nat) (text : String) : String :=
  text ++ "".pushn ' ' (width - text.length)

/-- The figures of a version. -/
structure VersionSummary where
  name : String
  transformations : Nat
  /-- How many types change between this version and the next. -/
  changed : Nat
  deriving DecidableEq, Repr

/-- **The figures of a schema.** -/
structure Summary where
  current : String
  versions : List VersionSummary
  nodes : Nat
  /-- How many nodes have a version. -/
  versioned : Nat
  upgrades : Nat
  references : Nat
  deriving DecidableEq, Repr

/-- **The figures of a compiled schema.** -/
def Compilation.summary (compilation : Compilation) : Summary :=
  let chain := compilation.chain
  let graph := compilation.graph
  let figures (version : Version) : VersionSummary :=
    ⟨version.name, version.transformations.length,
      ((graph.changedAt? version.index).map SortedMap.size).getD 0⟩
  { current := chain.nameOf chain.currentIndex
    versions := chain.versions.map figures
    nodes := graph.nodes.size
    versioned := (graph.nodes.toList.filter fun node => node.version.isSome).length
    upgrades := compilation.plan.paths.length
    references := compilation.plan.references.length }

namespace Summary

/-- The line of a version. -/
def versionLine (version : VersionSummary) : String :=
  "  " ++ padRight 16 version.name ++
    s!" {version.transformations} transformations, {version.changed} types change after\n"

/-- **The summary as text.** -/
def text (summary : Summary) : String :=
  s!"ok: {summary.versions.length} versions, current '{summary.current}'\n" ++
    String.join (summary.versions.map versionLine) ++
    s!"{summary.nodes} nodes ({summary.versioned} versioned), " ++
    s!"{summary.upgrades} upgrade paths, {summary.references} code references\n"

/-- The figures of a version as JSON. -/
def versionJson (version : VersionSummary) : Json :=
  .object [
    ("changed", .number version.changed),
    ("name", .text version.name),
    ("transformations", .number version.transformations)]

/-- **The summary as JSON.** -/
def json (summary : Summary) : Json :=
  .object [
    ("current_version", .text summary.current),
    ("nodes", .number summary.nodes),
    ("references", .number summary.references),
    ("status", .text "ok"),
    ("upgrades", .number summary.upgrades),
    ("versioned_nodes", .number summary.versioned),
    ("versions", .array (summary.versions.map versionJson))]

end Summary

end SchemaEvolution

import SchemaEvolution.Command.Arguments
import SchemaEvolution.Compilation

/-!
# The log

While a schema is compiled, the passes tell what they have found. An event says how much it matters,
and a line of the log is written for those that are asked for: by the settings of the command, or by
the surroundings, which come first. How a line looks is left open here, as is the time of day that
some lines begin with; so is the order of events that come from different workers.

## Main definitions

* `LogLevel`: how much an event matters
* `LogEvent`, `LogEvent.message`, `LogEvent.fields`: what the passes tell, its words and data
* `Config.events`: what is told while a schema is compiled
* `LogSettings`, `Invocation.logSettings`: what is asked of the log
* `LogLine`, `LogSettings.lines`: the lines of the log
-/

namespace SchemaEvolution

/-- **How much an event matters.** -/
inductive LogLevel where
  | error
  | warn
  | info
  | debug
  | trace
  deriving DecidableEq, Repr

/-- The place of a level, the one that matters most first. -/
def LogLevel.rank : LogLevel → Nat
  | error => 0
  | warn => 1
  | info => 2
  | debug => 3
  | trace => 4

/-- **What the passes tell.** -/
inductive LogEvent where
  /-- The versions form a chain. -/
  | sequenced (versions : Nat) (root : String)
  /-- The transformations of a version are replayed, and change so many types. -/
  | replayed (version : String) (transformations changed : Nat)
  /-- The types that change behind a version are found, from those that it starts with. -/
  | resolved (version : String) (seeded changed : Nat)
  | builtGraph (nodes versions : Nat)
  | derivedUpgrade (source target : Identity)
  | derivedPaths (paths references : Nat)
  | compiled (versions : Nat) (current : String) (nodes upgrades workers : Nat)
  deriving DecidableEq, Repr

namespace LogEvent

/-- How much an event matters: the passes that go through all versions or types tell of each. -/
def level : LogEvent → LogLevel
  | sequenced .. | replayed .. | resolved .. | derivedUpgrade .. => .debug
  | builtGraph .. | derivedPaths .. | compiled .. => .info

/-- The words of an event. -/
def message : LogEvent → String
  | sequenced .. => "sequenced version chain"
  | replayed .. => "replayed version"
  | resolved .. => "resolved changed set"
  | builtGraph .. => "built type graph"
  | derivedUpgrade .. => "derived upgrade"
  | derivedPaths .. => "derived upgrade paths"
  | compiled .. => "compiled schema"

/-- The data of an event. -/
def fields : LogEvent → List (String × String)
  | sequenced versions root => [("versions", toString versions), ("root", root)]
  | replayed version transformations changed =>
    [("version", version), ("transformations", toString transformations),
      ("changed_types", toString changed)]
  | resolved version seeded changed =>
    [("version", version), ("seeded", toString seeded), ("changed", toString changed)]
  | builtGraph nodes versions => [("nodes", toString nodes), ("versions", toString versions)]
  | derivedUpgrade source target => [("from", source.text), ("to", target.text)]
  | derivedPaths paths references =>
    [("paths", toString paths), ("references", toString references)]
  | compiled versions current nodes upgrades workers =>
    [("versions", toString versions), ("current", current), ("nodes", toString nodes),
      ("upgrades", toString upgrades), ("workers", toString workers)]

/-- What is told of versions that are replayed one after the other, up to the first that fails. -/
def ofVersions (catalog : Catalog) : Layouts → List Version → List LogEvent
  | _, [] => []
  | layouts, version :: rest =>
    match Layouts.replay catalog version.name layouts version.transformations with
    | .error _ => []
    | .ok (layouts, changed) =>
      replayed version.name version.transformations.length changed.size ::
        ofVersions catalog layouts rest

end LogEvent

/-- What is told of a schema before its graph is built. -/
def Config.firstEvents (config : Config) : List LogEvent :=
  match Definition.ofConfig config with
  | .error _ => []
  | .ok definition =>
    match Chain.ofDefinition definition with
    | .error _ => []
    | .ok chain =>
      .sequenced chain.size (chain.nameOf 0) ::
        LogEvent.ofVersions definition.catalog (History.initialLayouts definition)
          chain.versions.tail

namespace Compilation

/-- What is told of the types that change behind a version. -/
def resolvedEvent (compilation : Compilation) (version : Nat) : LogEvent :=
  let seed := (compilation.history.snapshots version).filter Snapshot.differsFromNext
  let changed := ((compilation.graph.changedAt? version).map SortedMap.size).getD 0
  .resolved (compilation.chain.nameOf version) seed.length changed

/-- What is told of a graph and a plan. -/
def lastEvents (compilation : Compilation) (workers : Nat) : List LogEvent :=
  let chain := compilation.chain
  let nodes := compilation.graph.nodes.size
  let paths := compilation.plan.paths
  (List.range chain.currentIndex).reverse.map compilation.resolvedEvent ++
    .builtGraph nodes chain.size ::
    paths.map (fun path => .derivedUpgrade path.source path.target) ++
    [.derivedPaths paths.length compilation.plan.references.length,
      .compiled chain.size (chain.nameOf chain.currentIndex) nodes paths.length workers]

end Compilation

/-- **What is told while a schema is compiled.** Once its graph is begun nothing fails. -/
def Config.events (config : Config) (workers : Nat) : List LogEvent :=
  match config.compile workers with
  | .error _ => config.firstEvents
  | .ok compilation => config.firstEvents ++ compilation.lastEvents workers

/-! ## Lines -/

/-- How the lines of the log are written. -/
inductive LogFormat where
  /-- In one line. -/
  | compact
  /-- In several lines. -/
  | pretty
  | json
  deriving DecidableEq, Repr

/-- **What is asked of the log.** -/
structure LogSettings where
  /-- The least level that is written. -/
  level : LogLevel
  format : LogFormat
  /-- Whether lines tell where in the program they come from. -/
  target : Bool
  deriving DecidableEq, Repr

/-- What an invocation asks of the log. What is kept quiet writes faults only. -/
def Invocation.logSettings (invocation : Invocation) : LogSettings where
  level :=
    if invocation.quiet then .error
    else
      match invocation.verbose with
      | 0 => .warn
      | 1 => .info
      | 2 => .debug
      | _ => .trace
  format :=
    match invocation.output with
    | .json => .json
    | .text => if 3 ≤ invocation.verbose then .pretty else .compact
  target := decide (2 ≤ invocation.verbose)

/-- **A line of the log**: an event and how it is written. -/
structure LogLine where
  event : LogEvent
  format : LogFormat
  target : Bool
  deriving DecidableEq, Repr

namespace LogSettings

/-- Whether a line is written for an event. What the surroundings ask for comes first. -/
def lets (settings : LogSettings) (asked : Option (LogEvent → Bool)) (event : LogEvent) : Bool :=
  match asked with
  | some asked => asked event
  | none => decide (event.level.rank ≤ settings.level.rank)

/-- **The lines for events**, in their order. -/
def lines (settings : LogSettings) (asked : Option (LogEvent → Bool)) (events : List LogEvent) :
    List LogLine :=
  (events.filter (settings.lets asked)).map fun event => ⟨event, settings.format, settings.target⟩

end LogSettings

end SchemaEvolution

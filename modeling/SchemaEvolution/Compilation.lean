import SchemaEvolution.Graph.Build
import SchemaEvolution.Upgrade.Derive

/-!
# Compiling a schema

A schema is compiled by resolving its references, finding its chain of versions, replaying
their transformations, checking the interfaces at the current version, building the type
graph and deriving the upgrade plan.

## Main definitions

* `Compilation`: all that is known of a schema in the end
* `Config.compile`: the compilation of a schema, or the first fault in it
-/

namespace SchemaEvolution

/-- **All that is known of a schema** that is accepted. -/
structure Compilation where
  definition : Definition
  chain : Chain
  history : History
  graph : Graph
  plan : UpgradePlan
  deriving Repr

/-- A schema with its history: everything that is known before the graph is built. -/
structure Replayed where
  definition : Definition
  chain : Chain
  history : History
  deriving Repr

namespace Config

/-- The definition, the chain and the history of a schema. -/
def replay (config : Config) : Except SchemaError Replayed := do
  let definition ← Definition.ofConfig config
  let chain ← Chain.ofDefinition definition
  let history ← History.ofChain definition chain
  return ⟨definition, chain, history⟩

/-- **The compilation of a schema**, with the jobs for nodes and paths spread over a number
of workers. -/
def compile (config : Config) (workers : Nat) : Except SchemaError Compilation := do
  let ⟨definition, chain, history⟩ ← config.replay
  history.checkInterfaces definition chain.currentIndex
  let graph ← Graph.build workers definition chain history
  let plan ← UpgradePlan.derive workers chain history graph
  return ⟨definition, chain, history, graph, plan⟩

end Config

end SchemaEvolution

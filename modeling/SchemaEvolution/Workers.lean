/-!
# Jobs spread over workers

A list of independent jobs is cut into contiguous chunks of equal length, one for each worker. A
worker goes through its chunk up to its own first failure, and the first failure in the order of the
items is the answer, so the number of workers does not show in it. Jobs return nothing; what they
find they leave in a memory that all workers share.

The workers take turns here, one chunk after the other, where they may as well be interleaved in any
way. That makes no difference to jobs that keep to memory of their own. What is left out is a job
that ends its worker without an answer: it counts as a job that fails.

## Main definitions

* `Workers.chunks`: contiguous chunks of a length
* `Workers.forEach`: all jobs, spread over a number of workers
* `Workers.settle`: the memory behind jobs none of which fails
* `Workers.run`: jobs with results, and the items whose job ran
-/

namespace SchemaEvolution.Workers

universe u v w x

variable {α : Type u} {β : Type v} {ε : Type w} {σ : Type x}

/-- The contiguous chunks of a list, each of `length + 1` items but the last, which may have
fewer. -/
def chunks (length : Nat) (items : List α) : List (List α) :=
  match items with
  | [] => []
  | item :: rest => (item :: rest.take length) :: chunks length (rest.drop length)
  termination_by items.length
  decreasing_by
    simp only [List.length_drop, List.length_cons]
    omega

/-- What a step that may fail does to a memory, which it leaves as it is if it fails. -/
def step (change : σ → Except ε σ) (memory : σ) : Except ε Unit × σ :=
  match change memory with
  | .ok memory => (.ok (), memory)
  | .error e => (.error e, memory)

/-- The jobs of one worker, up to the first failure. -/
def inTurn (job : α → σ → Except ε Unit × σ) : List α → σ → Except ε Unit × σ
  | [], memory => (.ok (), memory)
  | item :: rest, memory =>
    match job item memory with
    | (.error e, memory) => (.error e, memory)
    | (.ok _, memory) => inTurn job rest memory

/-- The jobs of several workers. Each goes through its share, whatever becomes of the others, and
the first failure counts. -/
def together (job : α → σ → Except ε Unit × σ) : List (List α) → σ → Except ε Unit × σ
  | [], memory => (.ok (), memory)
  | share :: rest, memory =>
    let first := inTurn job share memory
    let later := together job rest first.2
    (first.1.bind fun _ => later.1, later.2)

/-- **All jobs, spread over a number of workers.** No workers count as one, and there are no more
workers than items. -/
def forEach (workers : Nat) (items : List α) (job : α → σ → Except ε Unit × σ) (memory : σ) :
    Except ε Unit × σ :=
  let count := min (max workers 1) items.length
  if count ≤ 1 then inTurn job items memory
  else together job (chunks ((items.length - 1) / count) items) memory

/-- The memory behind jobs none of which fails. -/
def settle : Except ε Unit × σ → Except ε σ
  | (.ok _, memory) => .ok memory
  | (.error e, _) => .error e

/-- What came of a list of jobs. -/
structure Outcome (α : Type u) (β : Type v) (ε : Type w) where
  /-- The items whose job ran. -/
  visited : List α
  /-- The results, in order, or the first failure. -/
  result : Except ε (List β)

/-- A job that notes its item and adds its result to those so far. -/
def note (job : α → Except ε β) (item : α) (memory : List α × List β) :
    Except ε Unit × List α × List β :=
  match job item with
  | .error e => (.error e, memory.1 ++ [item], memory.2)
  | .ok value => (.ok (), memory.1 ++ [item], memory.2 ++ [value])

/-- **Jobs with results**, spread over a number of workers. -/
def run (workers : Nat) (items : List α) (job : α → Except ε β) : Outcome α β ε :=
  let (result, visited, values) := forEach workers items (note job) ([], [])
  ⟨visited, result.map fun _ => values⟩

end SchemaEvolution.Workers

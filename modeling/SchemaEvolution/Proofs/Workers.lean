import SchemaEvolution.Proofs.Failure
import SchemaEvolution.Workers

/-!
# The number of workers does not show

The chunks of a list are the list again, and the first failure of all workers is the first
failure in the order of the items. So spreading the jobs gives what one job after the other
gives.

## Main definitions

* `Workers.sequential`, `Outcome.join`: what comes of one worker, and of several
* `Workers.Noted`: the memory of jobs with results says what came of them

## Main results

* `Workers.flatten_chunks`: the chunks are the list again
* `Workers.settle_forEach`: jobs none of which fails are one job after the other
* `Workers.run_eq`: what comes of a run is what comes of its workers
* `Workers.result_run`: the result is that of one job after the other
-/

namespace SchemaEvolution.Workers

universe u v w x

variable {α : Type u} {β : Type v} {ε : Type w} {σ : Type x}

theorem flatten_chunks (length : Nat) (items : List α) :
    (chunks length items).flatten = items := by
  fun_induction chunks length items with
  | case1 => rfl
  | case2 item rest ih =>
    rw [List.flatten_cons, ih, List.cons_append, List.take_append_drop]

/-! ## Jobs with a memory -/

section Memory

variable {job : α → σ → Except ε Unit × σ}

theorem settle_step (change : σ → Except ε σ) (memory : σ) :
    settle (step change memory) = change memory := by
  rw [step]
  cases change memory <;> rfl

theorem settle_inTurn (items : List α) (memory : σ) :
    settle (inTurn job items memory) =
      items.foldlM (fun memory item => settle (job item memory)) memory := by
  induction items generalizing memory with
  | nil => rfl
  | cons item rest ih =>
    rw [inTurn, List.foldlM_cons]
    rcases job item memory with ⟨_ | _, after⟩
    · rfl
    · exact ih after

theorem settle_together (shares : List (List α)) (memory : σ) :
    settle (together job shares memory) =
      shares.flatten.foldlM (fun memory item => settle (job item memory)) memory := by
  induction shares generalizing memory with
  | nil => rfl
  | cons share rest ih =>
    rw [together, List.flatten_cons, List.foldlM_append, ← settle_inTurn]
    rcases inTurn job share memory with ⟨_ | _, after⟩
    · rfl
    · exact ih after

/-- **Jobs none of which fails are one job after the other**, whatever the number of workers, and
otherwise the first failure in the order of the items counts. -/
theorem settle_forEach (workers : Nat) (items : List α) (memory : σ) :
    settle (forEach workers items job memory) =
      items.foldlM (fun memory item => settle (job item memory)) memory := by
  unfold forEach
  dsimp only
  split
  · exact settle_inTurn items memory
  · rw [settle_together, flatten_chunks]

end Memory

/-! ## Jobs with results -/

variable {job : α → Except ε β}

/-- What comes of one worker, which stops at its first failure. -/
def sequential (job : α → Except ε β) : List α → Outcome α β ε
  | [] => ⟨[], .ok []⟩
  | item :: rest =>
    match job item with
    | .error e => ⟨[item], .error e⟩
    | .ok value =>
      let later := sequential job rest
      ⟨item :: later.visited, later.result.map (value :: ·)⟩

/-- The outcomes of several workers as one: the first failure counts. -/
def Outcome.join : List (Outcome α β ε) → Outcome α β ε
  | [] => ⟨[], .ok []⟩
  | first :: rest =>
    let later := join rest
    { visited := first.visited ++ later.visited
      result :=
        match first.result with
        | .error e => .error e
        | .ok values => later.result.map (values ++ ·) }

/-- **The memory of jobs with results says what came of them.** Results that were noted in vain,
before or behind a failure, are of no account. -/
structure Noted (start : List α × List β) (outcome : Outcome α β ε)
    (found : Except ε Unit × List α × List β) : Prop where
  result : found.1 = outcome.result.map fun _ => ()
  visited : found.2.1 = start.1 ++ outcome.visited
  values : ∀ values, outcome.result = .ok values → found.2.2 = start.2 ++ values

theorem noted_inTurn (items : List α) (start : List α × List β) :
    Noted start (sequential job items) (inTurn (note job) items start) := by
  induction items generalizing start with
  | nil => exact ⟨rfl, (List.append_nil _).symm, by rintro _ ⟨⟩; exact (List.append_nil _).symm⟩
  | cons item rest ih =>
    rw [inTurn, note, sequential]
    cases job item with
    | error e => exact ⟨rfl, rfl, nofun⟩
    | ok value =>
      obtain ⟨hresult, hvisited, hvalues⟩ := ih (start.1 ++ [item], start.2 ++ [value])
      dsimp only at hresult hvisited hvalues ⊢
      refine ⟨?_, ?_, ?_⟩
      · rw [hresult]
        cases (sequential job rest).result <;> rfl
      · rw [hvisited, List.append_assoc, List.singleton_append]
      · intro values h
        obtain ⟨later, hlater, rfl⟩ := map_eq_ok.mp h
        rw [hvalues later hlater, List.append_assoc, List.singleton_append]

theorem noted_together (shares : List (List α)) (start : List α × List β) :
    Noted start (.join (shares.map (sequential job))) (together (note job) shares start) := by
  induction shares generalizing start with
  | nil => exact ⟨rfl, (List.append_nil _).symm, by rintro _ ⟨⟩; exact (List.append_nil _).symm⟩
  | cons share rest ih =>
    have hfirst : Noted start (sequential job share) (inTurn (note job) share start) :=
      noted_inTurn share start
    have hlater := ih (inTurn (note job) share start).2
    refine ⟨?_, ?_, fun all h => ?_⟩
    · rw [together, hfirst.result, hlater.result, List.map_cons, Outcome.join]
      cases (sequential job share).result with
      | error e => rfl
      | ok values => cases (Outcome.join (rest.map (sequential job))).result <;> rfl
    · rw [together, hlater.visited, hfirst.visited, List.map_cons, Outcome.join, List.append_assoc]
    · rw [List.map_cons, Outcome.join] at h
      cases hshare : (sequential job share).result with
      | error e => simp [hshare] at h
      | ok values =>
        rw [hshare] at h
        obtain ⟨others, hothers, rfl⟩ := map_eq_ok.mp h
        rw [together, hlater.values others hothers, hfirst.values values hshare,
          List.append_assoc]

theorem Noted.eq {outcome : Outcome α β ε} {found : Except ε Unit × List α × List β}
    (h : Noted ([], []) outcome found) :
    (⟨found.2.1, found.1.map fun _ => found.2.2⟩ : Outcome α β ε) = outcome := by
  obtain ⟨visited, result⟩ := outcome
  have hvisited : found.2.1 = visited := h.visited
  rw [h.result, hvisited]
  cases result with
  | error e => rfl
  | ok values =>
    have hvalues : found.2.2 = values := h.values values rfl
    rw [hvalues]
    rfl

/-- **What comes of a run** is what comes of its workers. -/
theorem run_eq (workers : Nat) (items : List α) (job : α → Except ε β) :
    run workers items job =
      let count := min (max workers 1) items.length
      if count ≤ 1 then sequential job items
      else .join ((chunks ((items.length - 1) / count) items).map (sequential job)) := by
  suffices h : Noted ([], []) (let count := min (max workers 1) items.length
      if count ≤ 1 then sequential job items
      else .join ((chunks ((items.length - 1) / count) items).map (sequential job)))
      (forEach workers items (note job) ([], [])) from h.eq
  unfold forEach
  dsimp only
  split
  · exact noted_inTurn items ([], [])
  · exact noted_together _ ([], [])

theorem result_sequential (job : α → Except ε β) (items : List α) :
    (sequential job items).result = items.mapM job := by
  induction items with
  | nil => rfl
  | cons item rest ih =>
    rw [List.mapM_cons, ← ih, sequential]
    cases job item with
    | error e => rfl
    | ok value =>
      dsimp only
      cases (sequential job rest).result <;> rfl

theorem mapM_append_eq (job : α → Except ε β) (first rest : List α) :
    (first ++ rest).mapM job =
      match first.mapM job with
      | .error e => .error e
      | .ok values => (rest.mapM job).map (values ++ ·) := by
  rw [List.mapM_append]
  cases first.mapM job with
  | error e => rfl
  | ok values => cases rest.mapM job <;> rfl

/-- The first failure of several workers is the first in the order of the items. -/
theorem result_join (job : α → Except ε β) (chunks : List (List α)) :
    (Outcome.join (chunks.map (sequential job))).result = chunks.flatten.mapM job := by
  induction chunks with
  | nil => rfl
  | cons chunk rest ih =>
    rw [List.flatten_cons, mapM_append_eq, ← ih, ← result_sequential]
    rfl

/-- **The number of workers does not show** in the result. -/
theorem result_run (workers : Nat) (items : List α) (job : α → Except ε β) :
    (run workers items job).result = items.mapM job := by
  rw [run_eq]
  dsimp only
  split
  · exact result_sequential job items
  · rw [result_join, flatten_chunks]

end SchemaEvolution.Workers

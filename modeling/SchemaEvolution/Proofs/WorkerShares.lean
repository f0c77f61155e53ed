import SchemaEvolution.Proofs.Workers

/-!
# What each worker does

The items are shared out in contiguous chunks, one for each worker, though there may be fewer chunks
than workers. A worker goes through its share up to the first item whose job fails. So the jobs that
one worker alone would run are run in any case, those behind the first failure may be run too, and
no job is run twice.

## Main definitions

* `Workers.shares`: the chunks that the workers get
* `Workers.upToFailure`: the items up to the first whose job fails
* `Workers.FirstFailure`: the failure of the first item whose job fails

## Main results

* `Workers.length_chunks_le`: how many chunks there are
* `Workers.run_eq_join`: every worker goes through its share
* `Workers.upToFailure_flatten`: what one worker alone goes through comes first
* `Workers.run_exact`: the outcome of a run, whatever the number of workers
-/

namespace SchemaEvolution.Workers

universe u v w

variable {α : Type u} {β : Type v} {ε : Type w}

/-- **The chunks that the workers get.** -/
def shares (workers : Nat) (items : List α) : List (List α) :=
  chunks ((items.length - 1) / min (max workers 1) items.length) items

/-- **The items up to the first whose job fails**, that item included. -/
def upToFailure (job : α → Except ε β) (items : List α) : List α :=
  items.takeWhile (fun item => (job item).isOk) ++
    (items.dropWhile fun item => (job item).isOk).take 1

/-- **The failure of the first item whose job fails.** -/
def FirstFailure (job : α → Except ε β) (items : List α) (e : ε) : Prop :=
  ∃ before item after, items = before ++ item :: after ∧
    (∀ other ∈ before, ∃ value, job other = .ok value) ∧ job item = .error e

variable {job : α → Except ε β} {items : List α} {item : α}

/-! ## Chunks -/

theorem ne_nil_of_mem_chunks {length : Nat} {chunk : List α} (h : chunk ∈ chunks length items) :
    chunk ≠ [] := by
  fun_induction chunks length items with
  | case1 => cases h
  | case2 item rest ih =>
    rcases List.mem_cons.mp h with rfl | hrest
    · exact List.cons_ne_nil _ _
    · exact ih hrest

/-- **There are no more chunks than it takes** to hold all items. -/
theorem length_chunks_le {length count : Nat} (h : items.length ≤ count * (length + 1)) :
    (chunks length items).length ≤ count := by
  fun_induction chunks length items generalizing count with
  | case1 => exact Nat.zero_le count
  | case2 item rest ih =>
    cases count with
    | zero => simp at h
    | succ count =>
      rw [List.length_cons, Nat.succ_mul] at h
      refine Nat.succ_le_succ (ih ?_)
      rw [List.length_drop]
      omega

theorem chunks_of_length_le {length : Nat} (hne : items ≠ []) (h : items.length ≤ length + 1) :
    chunks length items = [items] := by
  cases items with
  | nil => exact absurd rfl hne
  | cons item rest =>
    have hrest : rest.length ≤ length := Nat.le_of_succ_le_succ h
    rw [chunks, List.take_of_length_le hrest, List.drop_of_length_le hrest, chunks]

theorem flatten_shares (workers : Nat) (items : List α) : (shares workers items).flatten = items :=
  flatten_chunks _ items

/-- There may be fewer shares than workers, but not more. -/
theorem length_shares_le (workers : Nat) (items : List α) :
    (shares workers items).length ≤ max workers 1 := by
  refine Nat.le_trans (length_chunks_le ?_) (Nat.min_le_left (max workers 1) items.length)
  cases items with
  | nil => exact Nat.zero_le _
  | cons item rest =>
    have hworkers : 0 < min (max workers 1) (item :: rest).length := by
      rw [List.length_cons]
      omega
    exact Nat.lt_mul_div_succ ((item :: rest).length - 1) hworkers

/-! ## One worker -/

theorem upToFailure_cons_of_ok {value : β} (h : job item = .ok value) (rest : List α) :
    upToFailure job (item :: rest) = item :: upToFailure job rest := by
  have hok : (job item).isOk = true := by rw [h]; rfl
  simp [upToFailure, hok]

theorem upToFailure_cons_of_error {e : ε} (h : job item = .error e) (rest : List α) :
    upToFailure job (item :: rest) = [item] := by
  have hok : (job item).isOk = false := by rw [h]; rfl
  simp [upToFailure, hok]

theorem visited_sequential (job : α → Except ε β) (items : List α) :
    (sequential job items).visited = upToFailure job items := by
  induction items with
  | nil => rfl
  | cons item rest ih =>
    rw [sequential]
    cases hitem : job item with
    | error e => rw [upToFailure_cons_of_error hitem]
    | ok value => rw [upToFailure_cons_of_ok hitem, ← ih]

theorem upToFailure_isPrefix (job : α → Except ε β) (items : List α) :
    upToFailure job items <+: items := by
  induction items with
  | nil => exact List.prefix_rfl
  | cons item rest ih =>
    cases hitem : job item with
    | error e =>
      rw [upToFailure_cons_of_error hitem]
      exact ⟨rest, rfl⟩
    | ok value =>
      rw [upToFailure_cons_of_ok hitem]
      exact (List.prefix_cons_inj item).mpr ih

theorem upToFailure_of_ok (h : ∀ item ∈ items, ∃ value, job item = .ok value) :
    upToFailure job items = items := by
  induction items with
  | nil => rfl
  | cons item rest ih =>
    obtain ⟨⟨value, hitem⟩, hrest⟩ := List.forall_mem_cons.mp h
    rw [upToFailure_cons_of_ok hitem, ih hrest]

/-- One worker goes no further than two that share the items. -/
theorem upToFailure_append (first rest : List α) :
    upToFailure job (first ++ rest) <+: upToFailure job first ++ upToFailure job rest := by
  induction first with
  | nil => exact List.prefix_rfl
  | cons item first ih =>
    rw [List.cons_append]
    cases hitem : job item with
    | error e =>
      rw [upToFailure_cons_of_error hitem, upToFailure_cons_of_error hitem]
      exact List.prefix_append _ _
    | ok value =>
      rw [upToFailure_cons_of_ok hitem, upToFailure_cons_of_ok hitem, List.cons_append]
      exact (List.prefix_cons_inj item).mpr ih

/-- **What one worker alone goes through comes first** among what several go through. -/
theorem upToFailure_flatten (job : α → Except ε β) (shares : List (List α)) :
    upToFailure job shares.flatten <+: shares.flatMap (upToFailure job) := by
  induction shares with
  | nil => exact List.prefix_rfl
  | cons share rest ih =>
    rw [List.flatten_cons, List.flatMap_cons]
    exact (upToFailure_append share rest.flatten).trans ((List.prefix_append_right_inj _).mpr ih)

/-- Whatever several workers go through is among the items, in their order. -/
theorem flatMap_upToFailure_sublist (job : α → Except ε β) (shares : List (List α)) :
    (shares.flatMap (upToFailure job)).Sublist shares.flatten := by
  induction shares with
  | nil => exact List.Sublist.slnil
  | cons share rest ih =>
    rw [List.flatMap_cons, List.flatten_cons]
    exact (upToFailure_isPrefix job share).sublist.append ih

theorem flatMap_upToFailure_of_ok {shares : List (List α)}
    (h : ∀ item ∈ shares.flatten, ∃ value, job item = .ok value) :
    shares.flatMap (upToFailure job) = shares.flatten := by
  rw [← List.flatMap_id]
  refine List.flatMap_congr fun share hshare => upToFailure_of_ok fun item hitem => ?_
  exact h item (List.mem_flatten_of_mem hshare hitem)

theorem mapM_eq_error_iff {e : ε} : items.mapM job = .error e ↔ FirstFailure job items e := by
  induction items with
  | nil =>
    refine ⟨nofun, ?_⟩
    rintro ⟨before, item, after, hitems, -⟩
    simp at hitems
  | cons item rest ih =>
    rw [List.mapM_cons, bind_eq_error]
    constructor
    · rintro (hitem | ⟨value, hitem, h⟩)
      · exact ⟨[], item, rest, rfl, nofun, hitem⟩
      · rcases bind_eq_error.mp h with hrest | ⟨values, -, h⟩
        · obtain ⟨before, failing, after, rfl, hbefore, hfails⟩ := ih.mp hrest
          exact ⟨item :: before, failing, after, rfl,
            List.forall_mem_cons.mpr ⟨⟨value, hitem⟩, hbefore⟩, hfails⟩
        · cases h
    · rintro ⟨before, failing, after, hitems, hbefore, hfails⟩
      cases before with
      | nil =>
        obtain ⟨rfl, rfl⟩ := List.cons.inj hitems
        exact .inl hfails
      | cons first before =>
        obtain ⟨rfl, rfl⟩ := List.cons.inj hitems
        obtain ⟨⟨value, hitem⟩, hbefore⟩ := List.forall_mem_cons.mp hbefore
        refine .inr ⟨value, hitem, bind_eq_error.mpr (.inl (ih.mpr ?_))⟩
        exact ⟨before, failing, after, rfl, hbefore, hfails⟩

/-! ## All workers -/

theorem visited_join (outcomes : List (Outcome α β ε)) :
    (Outcome.join outcomes).visited = outcomes.flatMap Outcome.visited := by
  induction outcomes with
  | nil => rfl
  | cons first rest ih => rw [List.flatMap_cons, ← ih, Outcome.join]

theorem join_singleton (outcome : Outcome α β ε) : Outcome.join [outcome] = outcome := by
  obtain ⟨visited, result⟩ := outcome
  cases result <;> simp [Outcome.join, Except.map]

/-- **Every worker goes through its share.** -/
theorem run_eq_join (workers : Nat) (items : List α) (job : α → Except ε β) :
    run workers items job = .join ((shares workers items).map (sequential job)) := by
  rw [run_eq]
  dsimp only
  split
  · rename_i hfew
    cases hitems : items with
    | nil => simp [shares, chunks, sequential, Outcome.join]
    | cons first rest =>
      rw [hitems] at hfew
      have hone : min (max workers 1) (first :: rest).length = 1 := by
        rw [List.length_cons] at hfew ⊢
        omega
      rw [shares, hone, Nat.div_one, chunks_of_length_le (List.cons_ne_nil _ _) (by simp),
        List.map_singleton, join_singleton]
  · rfl

theorem run_one (items : List α) (job : α → Except ε β) :
    run 1 items job = sequential job items :=
  (run_eq 1 items job).trans (if_pos (Nat.min_le_left 1 items.length))

/-- **Each share is gone through up to its own first failure.** -/
theorem visited_run (workers : Nat) (items : List α) (job : α → Except ε β) :
    (run workers items job).visited = (shares workers items).flatMap (upToFailure job) := by
  rw [run_eq_join, visited_join, List.flatMap_map]
  exact List.flatMap_congr fun share _ => visited_sequential job share

/-- **The number of workers does not show in the result**: it is the failure of the first item whose
job fails, or else all results in order. There are no more shares than workers, none is empty, and
one behind the other they are the items. Each share is gone through up to its own first failure. So
what one worker alone goes through comes first among all that is gone through, no job is run twice,
and if none fails all are run. -/
theorem run_exact (workers : Nat) (items : List α) (job : α → Except ε β) :
    let outcome := run workers items job
    (outcome.result = (run 1 items job).result ∧
      (∀ e, outcome.result = .error e ↔ FirstFailure job items e) ∧
      ∀ values, outcome.result = .ok values ↔
        List.Forall₂ (fun item value => job item = .ok value) items values) ∧
    ((∀ share ∈ shares workers items, share ≠ []) ∧
      (shares workers items).length ≤ max workers 1 ∧ (shares workers items).flatten = items) ∧
    outcome.visited = (shares workers items).flatMap (upToFailure job) ∧
    (run 1 items job).visited <+: outcome.visited ∧
    outcome.visited.Sublist items ∧
    ((∀ item ∈ items, ∃ value, job item = .ok value) → outcome.visited = items) := by
  intro outcome
  have hshares := flatten_shares workers items
  have hvisited : outcome.visited = (shares workers items).flatMap (upToFailure job) :=
    visited_run workers items job
  refine ⟨⟨?_, fun e => ?_, fun values => ?_⟩, ⟨fun share => ne_nil_of_mem_chunks,
    length_shares_le workers items, hshares⟩, hvisited, ?_, ?_, fun hok => ?_⟩
  · rw [result_run, result_run]
  · rw [result_run, mapM_eq_error_iff]
  · rw [result_run, mapM_eq_ok_iff]
  · have hfirst := upToFailure_flatten job (shares workers items)
    rwa [hshares, ← visited_sequential, ← run_one, ← hvisited] at hfirst
  · have hamong := flatMap_upToFailure_sublist job (shares workers items)
    rwa [hshares, ← hvisited] at hamong
  · rw [hvisited, flatMap_upToFailure_of_ok (hshares.symm ▸ hok), hshares]

/-- A job that fails for two items. -/
def failing (item : Nat) : Except Nat Unit := if item = 1 ∨ item = 7 then .error item else .ok ()

/-- Nine items make three shares for four workers. Two of them end early, and the first failure of
all counts. -/
theorem run_exact_uneven :
    shares 4 (List.range 9) = [[0, 1, 2], [3, 4, 5], [6, 7, 8]] ∧
    (run 4 (List.range 9) failing).result = .error 1 ∧
    (run 4 (List.range 9) failing).visited = [0, 1, 3, 4, 5, 6, 7] ∧
    (run 1 (List.range 9) failing).visited <+: [0, 1, 3, 4, 5, 6, 7] := by
  obtain ⟨⟨-, hfails, -⟩, -, hvisited, hfirst, -⟩ := run_exact 4 (List.range 9) failing
  have hshares : shares 4 (List.range 9) = [[0, 1, 2], [3, 4, 5], [6, 7, 8]] := by cbv
  rw [hshares] at hvisited
  have hvisited : (run 4 (List.range 9) failing).visited = [0, 1, 3, 4, 5, 6, 7] :=
    hvisited.trans (by decide)
  refine ⟨hshares, (hfails 1).mpr ⟨[0], 1, List.range' 2 7, rfl, ?_, rfl⟩, hvisited,
    hvisited ▸ hfirst⟩
  simp [failing]

end SchemaEvolution.Workers

/-
The lifecycle of a job.

The API checks the status it has read against `_VALID_TRANSITIONS` (or a test of the
operation's own) before it changes it. A worker's `_checkpoint_job`, `_complete_job` and
`_fail_job` write theirs whatever the row holds. Both write over the row of the commit. The
results here give the exact condition under which every change of the committed status is
an edge of the lifecycle graph, and a run in which a cancelled job completes.
-/
import WalStream.Job.System

set_option autoImplicit false

namespace WalStream.Job

open Lib Source

/-! ## The lifecycle graph

The graph is `_VALID_TRANSITIONS` with the moves of the workers. The code has no such table for
the workers; each of their transactions has one status to set. -/

/-- An edge of the lifecycle graph. -/
inductive LifecycleEdge : JobStatus → JobStatus → Prop
  | start : LifecycleEdge .pending .queued
  | acquire : LifecycleEdge .queued .running
  | pause : LifecycleEdge .running .paused
  | complete : LifecycleEdge .running .completed
  | fail : LifecycleEdge .running .failed
  | resume : LifecycleEdge .paused .queued
  | cancel {status : JobStatus} (h : status.is_terminal = false) : LifecycleEdge status .cancelled

/-- The status stays, or it takes an edge. -/
def Legal (before after : JobStatus) : Prop := after = before ∨ LifecycleEdge before after

/-- No edge leaves a terminal status. -/
theorem Legal.eq_of_terminal {before after : JobStatus} (h : Legal before after)
    (hterminal : before.is_terminal = true) : after = before := by
  rcases h with h | h
  · exact h
  · cases h with
    | cancel hnot => rw [hterminal] at hnot; cases hnot
    | _ => cases hterminal

/-- For the statuses the API moves to, the edges are the entries of `_VALID_TRANSITIONS`. -/
theorem lifecycleEdge_iff_valid {current target : JobStatus}
    (htarget : target = .queued ∨ target = .paused ∨ target = .cancelled) :
    LifecycleEdge current target ↔ target ∈ VALID_TRANSITIONS current := by
  rw [valid_transition_iff]
  constructor
  · intro h
    cases h with
    | start => exact Or.inl ⟨rfl, Or.inl rfl⟩
    | resume => exact Or.inl ⟨rfl, Or.inr rfl⟩
    | pause => exact Or.inr (Or.inl ⟨rfl, rfl⟩)
    | cancel h => exact Or.inr (Or.inr ⟨rfl, h⟩)
    | _ => rcases htarget with h | h | h <;> cases h
  · rintro (⟨rfl, rfl | rfl⟩ | ⟨rfl, rfl⟩ | ⟨rfl, h⟩)
    exacts [.start, .resume, .pause, .cancel h]

/-- For the statuses a worker's transactions move to, the edges all leave `RUNNING`. -/
theorem lifecycleEdge_iff_running {current target : JobStatus}
    (htarget : target = .paused ∨ target = .completed ∨ target = .failed) :
    LifecycleEdge current target ↔ current = .running := by
  constructor
  · intro h
    cases h with
    | pause => rfl
    | complete => rfl
    | fail => rfl
    | _ => rcases htarget with h | h | h <;> cases h
  · rintro rfl
    rcases htarget with rfl | rfl | rfl
    exacts [.pause, .complete, .fail]

/-! ## One commit

Only the column that was changed is written, onto the status of the commit. What was read
matters only for whether it is written at all. -/

/-- The status column after a commit is legal exactly if it was not written, was already
what is written, or allows it. -/
theorem legal_written_iff (base new current : JobStatus) :
    Legal current (written base new current) ↔
      (new ≠ base → new = current ∨ LifecycleEdge current new) := by
  by_cases h : new = base
  · rw [h, written_self]
    exact ⟨fun _ hne => absurd rfl hne, fun _ => Or.inl rfl⟩
  · rw [written_of_ne current h]
    exact ⟨fun hlegal _ => hlegal, fun hallowed => hallowed h⟩

/-- The statuses an accepted operation moves to. -/
theorem ApiStatus.target {base new : ReplayJob} (h : ApiStatus base new)
    (hne : new.status ≠ base.status) :
    new.status = .queued ∨ new.status = .paused ∨ new.status = .cancelled := by
  cases h with
  | same hs _ _ => exact absurd hs hne
  | released hs _ _ =>
      rcases hs with ⟨hs, _⟩ | ⟨hs, _⟩
      · exact Or.inr (Or.inl hs)
      · exact Or.inr (Or.inr hs)
  | queued hs _ _ _ => exact Or.inl hs

/-- The status a worker's transaction sets. -/
def WorkerTx.target : WorkerTx → Option JobStatus
  | .checkpoint _ _ => some .paused
  | .complete _ _ => some .completed
  | .fail _ => some .failed
  | _ => none

theorem WorkerTx.body_status (tx : WorkerTx) (job : ReplayJob) :
    (tx.body job).status = tx.target.getD job.status := by
  cases tx with
  | progress stream event was_dup now =>
      simp only [WorkerTx.body, update_checkpoint_status]
      split <;> rfl
  | _ => rfl

theorem WorkerTx.target_cases {tx : WorkerTx} {target : JobStatus} (h : tx.target = some target) :
    target = .paused ∨ target = .completed ∨ target = .failed := by
  cases tx with
  | checkpoint last_id now => cases h; exact Or.inl rfl
  | complete stream now => cases h; exact Or.inr (Or.inl rfl)
  | fail error => cases h; exact Or.inr (Or.inr rfl)
  | setup source count => cases h
  | progress stream event was_dup now => cases h
  | event_failed event attempts now => cases h

/-! ## Runs

Since every step is judged by itself, the condition on a run is that of its steps, in both
directions. -/

/-- The step is not the commit of a transaction that changes the status it has read, onto a
row that has another status by then and does not allow the change: to the API's target by
`_VALID_TRANSITIONS`, to a worker's by being `RUNNING`. -/
def StatusAllows (s : Sys) : Action → Prop
  | .api_commit i => ∀ tx, s.api i = some tx → tx.new.status ≠ tx.base.status →
      tx.new.status = s.row.status ∨ tx.new.status ∈ VALID_TRANSITIONS s.row.status
  | .go w _ => ∀ base tx target, (s.workers w).phase = .writing base tx →
      tx.target = some target → target ≠ base.status →
      target = s.row.status ∨ s.row.status = .running
  | _ => True

instance StatusAllows.decidable (s : Sys) : DecidablePred (StatusAllows s)
  | .api_commit i =>
      inferInstanceAs (Decidable (∀ tx, tx ∈ s.api i → tx.new.status ≠ tx.base.status →
        tx.new.status = s.row.status ∨ tx.new.status ∈ VALID_TRANSITIONS s.row.status))
  | .go w _ =>
      match hph : (s.workers w).phase with
      | .writing base tx =>
          decidable_of_iff (∀ target, target ∈ tx.target → target ≠ base.status →
              target = s.row.status ∨ s.row.status = .running)
            ⟨fun h base' tx' target hw => by
              obtain ⟨rfl, rfl⟩ := Phase.writing.inj (hph.symm.trans hw)
              exact h target,
            fun h target => h base tx target hph⟩
      | .idle | .acquired | .fetched _ | .streaming _ _ | .in_hand _ _ _ _ | .checkpointing _
      | .completing _ | .failing _ => .isTrue (by simp [StatusAllows, hph])
  | .tick _ | .xadd _ | .produce _ _ | .api_read _ _ | .api_abort _ | .acquire _ | .raise _ _
  | .renew_start _ | .renew _ | .renew_fail _ | .stop _ | .crash _ | .boot _ | .leave _ =>
      .isTrue trivial

section

variable {cfg : Config} {s t : Sys} {a : Action}

theorem legal_api_iff (tx : ApiTx) (current : JobStatus) :
    Legal current (written tx.base.status tx.new.status current) ↔
      (tx.new.status ≠ tx.base.status →
        tx.new.status = current ∨ tx.new.status ∈ VALID_TRANSITIONS current) := by
  rw [legal_written_iff]
  -- the API's table has exactly the edges to the statuses the API moves to
  refine forall_congr' fun hne => or_congr_right ?_
  exact lifecycleEdge_iff_valid ((ApiOp.apply_spec tx.accepted).2.target hne)

theorem legal_worker_iff (base : ReplayJob) (tx : WorkerTx) (current : JobStatus) :
    Legal current (written base.status (tx.body base).status current) ↔
      ∀ target, tx.target = some target → target ≠ base.status →
        target = current ∨ current = .running := by
  rw [legal_written_iff, tx.body_status]
  cases htarget : tx.target with
  | none => simp
  | some target =>
      simp only [Option.getD_some, Option.some.injEq, forall_eq']
      refine forall_congr' fun _ => or_congr_right ?_
      exact lifecycleEdge_iff_running (WorkerTx.target_cases htarget)

/-- **One step.** Whatever the state, the step's change of the status is legal exactly under
its condition. -/
theorem legal_step_iff (hs : step cfg s a = some t) :
    Legal s.row.status t.row.status ↔ StatusAllows s a := by
  cases step_took hs with
  | api_commit i tx htx =>
      have hiff := legal_api_iff tx s.row.status
      constructor
      · intro hlegal tx' htx'
        obtain rfl := Option.some.inj (htx.symm.trans htx')
        exact hiff.mp hlegal
      · exact fun hallows => hiff.mpr (hallows tx htx)
  | go w input m hm =>
      rcases Sys.move_row hm with ⟨base, tx, hw, hmove⟩ | ⟨hw, hmove⟩
      · have hiff := legal_worker_iff base tx s.row.status
        rw [hmove]
        constructor
        · intro hlegal base' tx' target hw'
          rw [hw] at hw'
          cases hw'
          exact hiff.mp hlegal target
        · exact fun hallows => hiff.mpr fun target => hallows base tx target hw
      · rw [hmove]
        exact ⟨fun _ base tx _ hw' => absurd hw' (hw base tx), fun _ => Or.inl rfl⟩
  | acquire w hidle helig =>
      refine ⟨fun _ => trivial, fun _ => ?_⟩
      -- an eligible job is queued, or is running and stays so
      dsimp only [acquired_row]
      cases hstatus : s.row.status with
      | queued => exact Or.inr .acquire
      | running => exact Or.inl rfl
      | _ => simp [eligible, hstatus] at helig
  | renew w =>
      refine ⟨fun _ => trivial, fun _ => Or.inl ?_⟩
      dsimp only [renewed_row]
      split <;> rfl
  | _ => exact ⟨fun _ => trivial, fun _ => Or.inl rfl⟩

/-- **When the lifecycle is legal.** In every run, from any row and with any requests and
transactions in flight, the status changes are all legal exactly if every commit of a status
finds the row in a status that allows it; and in such a run a terminal status never changes
again. -/
theorem lifecycle_legal_iff {s₀ : Sys} {tr : List (Sys × Action)} (hrun : Run (step cfg) s₀ tr s) :
    (StepsMeet (fun s a => ∀ t, step cfg s a = some t → Legal s.row.status t.row.status) tr ↔
      StepsMeet StatusAllows tr) ∧
    (StepsMeet StatusAllows tr →
      ∀ p ∈ tr, p.1.row.status.is_terminal = true → s.row.status = p.1.row.status) := by
  constructor
  · refine hrun.stepsMeet_iff fun s a t hs => ?_
    constructor
    · exact fun hlegal => (legal_step_iff hs).mp (hlegal t hs)
    · intro hallows t' hs'
      exact (legal_step_iff hs').mpr hallows
  · intro hallows p hp hterminal
    refine hrun.persists (G := fun u => u.row.status = p.1.row.status) ?_ hallows p hp rfl
    intro u a t hu hua hs
    -- from a terminal status no legal change leads away
    have hlegal := (legal_step_iff hs).mpr hua
    rw [hu] at hlegal
    exact hlegal.eq_of_terminal hterminal

/-- Worker `0` replays an event while the job is paused, and leaves it; the job is resumed and
acquired by worker `1`, and cancelled while that one is streaming. Worker `1` leaves it too,
and a request to resume is refused. -/
theorem lifecycle_legal_cancelled :
    ∃ tr s, Run (step short_config) (Sys.initial 1 two_events 0) tr s ∧
      StepsMeet StatusAllows tr ∧
      s.row.status = .cancelled ∧ s.row.events_processed = 1 ∧ s.owners = [1, 0] ∧
      (StepsMeet (fun s a => ∀ t, step short_config s a = some t →
          Legal s.row.status t.row.status) tr ↔ StepsMeet StatusAllows tr) ∧
      (StepsMeet StatusAllows tr →
        ∀ p ∈ tr, p.1.row.status.is_terminal = true → s.row.status = p.1.row.status) := by
  have hrun : ∃ tr s, Run (step short_config) (Sys.initial 1 two_events 0) tr s ∧
      StepsMeet StatusAllows tr ∧
      s.row.status = .cancelled ∧ s.row.events_processed = 1 ∧ s.owners = [1, 0] :=
    exists_run_meeting_of_exec
      [.api_read 0 .start, .api_commit 0, .boot 0, .acquire 0, .go 0 {}, .go 0 {}, .go 0 {},
        .go 0 {}, .go 0 {}, .go 0 {}, .go 0 {}, .go 0 {}, .go 0 {},
        .api_read 0 .pause, .api_commit 0, .go 0 { success := true }, .go 0 {}, .go 0 {},
        .go 0 {}, .go 0 {}, .go 0 {}, .go 0 {}, .go 0 {}, .api_read 0 .resume, .api_commit 0,
        .boot 1, .acquire 1, .go 1 {}, .go 1 {}, .go 1 {}, .api_read 0 .cancel, .api_commit 0,
        .go 1 {}, .go 1 {}, .go 1 {}, .api_read 0 .resume]
      (by decide) (by decide)
  obtain ⟨tr, s, hrun, hallows, hstatus, hprocessed, howners⟩ := hrun
  exact ⟨tr, s, hrun, hallows, hstatus, hprocessed, howners, lifecycle_legal_iff hrun⟩

/-- A cancelled job completes: the cancellation commits when the stream of the worker has
ended, and `_complete_job` writes `COMPLETED` over it. -/
theorem cancelled_job_completes :
    ∃ tr s, Run (step short_config) (Sys.initial 1 empty_world 0) tr s ∧
      ∃ t, step short_config s (.go 0 {}) = some t ∧ s.row.status = .cancelled ∧
        t.row.status = .completed ∧ ¬ Legal s.row.status t.row.status := by
  have hrun : ∃ tr s, Run (step short_config) (Sys.initial 1 empty_world 0) tr s ∧
      s.row.status = .cancelled ∧
      (step short_config s (.go 0 {})).map (·.row.status) = some .completed :=
    exists_run_of_exec
      [.api_read 0 .start, .api_commit 0, .boot 0, .acquire 0,
        .go 0 {}, .go 0 {}, .go 0 {}, .go 0 {}, .go 0 {}, .go 0 {},
        .api_read 0 .cancel, .api_commit 0, .go 0 {}] (by decide)
  obtain ⟨tr, s, hrun, hcancelled, hstep⟩ := hrun
  obtain ⟨t, ht, hcompleted⟩ := Option.map_eq_some_iff.mp hstep
  refine ⟨tr, s, hrun, t, ht, hcancelled, hcompleted, ?_⟩
  intro hlegal
  have hsame := hlegal.eq_of_terminal (by rw [hcancelled]; rfl)
  rw [hcompleted, hcancelled] at hsame
  cases hsame

end

end WalStream.Job

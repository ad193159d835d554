/-
Deleting a job.

`delete_job` takes the row of a terminal job away, and nobody tells the workers. One may still
be executing the job: it took a check for `CANCELLED` too early, its lease ran out, or the
status was written over. From then on `db.get` finds `None`, an `UPDATE` of the ORM finds no
row to match, and the worker leaves through an exception. `go_without_row` is what each piece
of its code does then; it is not given a row, since there is none. That this is no more than a
transaction that raises is a theorem: `deletions_are_failures` matches the run with a run of
the system without deletions, and all that is known of those runs holds of the workers here.
-/
import WalStream.Job.Completion
import WalStream.Lib.Simulation

set_option autoImplicit false

namespace WalStream.Job.Deletion

open Lib Source

/-! ## The request

The request reads the job, refuses it unless it is terminal, and deletes what it has read. The
`DELETE` names the row by its primary key alone, so it takes the row away in whatever status it
is by then. -/

/-- The refusals of `DELETE /jobs/{job_id}`, with what their `detail` mentions. -/
inductive Refusal
  /-- `Job {job_id} not found`, a 404 response -/
  | not_found
  /-- `Cannot delete job in {current} state. Cancel it first.`, a 400 response -/
  | cannot_delete (current : JobStatus)
deriving DecidableEq, Repr

/-- A deletion in flight: the job as it was read, which was terminal. -/
structure DeleteTx where
  base : ReplayJob
  terminal : base.status.is_terminal = true

/-- `get_job_or_404`. -/
def get_job_or_404 : Option ReplayJob → Except Refusal ReplayJob
  | some job => .ok job
  | none => .error .not_found

/-- `delete_job`, up to its `DELETE`. -/
def delete_job (job : ReplayJob) : Except Refusal DeleteTx :=
  if h : job.status.is_terminal = true then .ok ⟨job, h⟩ else .error (.cannot_delete job.status)

/-! ## A worker without its row

`db.get` returns `None` for a row that is gone, and the next attribute raises; an object that
was read before raises at its flush. Either way the worker meets an exception at a place where
it meets exceptions in any run, and this is the whole idea of the module. -/

/-- Reading or setting an attribute of what `db.get` returns for a row that is gone. -/
def no_attribute (name : String) : String := "'NoneType' object has no attribute '" ++ name ++ "'"

/-- The flush of an object whose row is gone. -/
def no_match : String :=
  "UPDATE statement on table 'replay_jobs' expected to update 1 row(s); 0 were matched."

/-- The next piece of a worker's code when the row is gone. -/
def go_without_row (cfg : Config) (world : World) (wk : Worker) (input : Input) : Option Move :=
  match wk.phase with
  | .idle => none
  -- `scalar_one` raises in `_acquire_job`, and only the loop of `start` is there to catch it
  | .acquired => some (wk.to .idle)
  -- what raises within `_execute_job` leads to its handler, with the text of the exception
  | .fetched _ => some (wk.to (.failing (no_attribute "replay_source")))
  | .writing base tx =>
      -- an object that was not changed is not written, and its commit goes through
      if tx.body base = base then
        some
          { worker := wk.after_commit tx base world input.position,
            commit := none,
            acked := none,
            advanced := none }
      else
        match tx with
        -- the handler itself runs outside of any other
        | .fail _ => some (wk.to .idle)
        | _ => some (wk.to (.failing no_match))
  | .streaming job stream =>
      match stream.step cfg.window world input.choice with
      | .more stream => some (wk.to (.streaming job stream))
      | .yield event stream => some (wk.to (.in_hand job stream event .yielded))
      | .done stream => some (wk.to (.completing stream))
      | .raise _ => some (wk.to (.failing "stream error"))
  | .in_hand job stream event stage =>
      match stage with
      | .yielded =>
          if wk.running then some (wk.to (.in_hand job stream event .checking))
          else some (wk.to (.checkpointing job))
      | .checking => some (wk.to (.failing (no_attribute "status")))
      -- the retries ask nothing of the database
      | .ready attempt => some (wk.to (.in_hand job stream event (.awaiting attempt)))
      | .awaiting attempt =>
          if input.success || input.was_duplicate then
            some { wk.to (.in_hand job stream event (.acked input.was_duplicate)) with
              acked := some event.message_id }
          else if attempt < cfg.max_event_retries + 1 then
            some (wk.to (.in_hand job stream event (.ready (attempt + 1))))
          else some (wk.to (.in_hand job stream event .exhausted))
      | .acked true => some (wk.to (.failing (no_attribute "events_skipped_dedup")))
      | .acked false => some (wk.to (.failing (no_attribute "events_processed")))
      | .exhausted => some (wk.to (.failing (no_attribute "events_failed")))
  | .checkpointing _ => some (wk.to (.failing (no_attribute "last_processed_id")))
  | .completing _ => some (wk.to (.failing (no_attribute "status")))
  -- the handler finds no row either, or not even the `job` it names in its log
  | .failing _ => some (wk.to .idle)

/-- What the next piece of a worker's code raises when the row is gone; `none` where it needs
no row. -/
def missing_row : Phase → Option String
  | .idle => none
  | .acquired => some "No row was found when one was required"
  | .fetched _ => some (no_attribute "replay_source")
  | .writing base tx =>
      -- an object that was not changed is not written, and its commit goes through
      if tx.body base = base then none else some no_match
  | .streaming _ _ => none
  | .in_hand _ _ _ stage =>
      match stage with
      | .yielded => none
      | .checking => some (no_attribute "status")
      | .ready _ => none
      | .awaiting _ => none
      | .acked was_dup =>
          some (no_attribute (if was_dup then "events_skipped_dedup" else "events_processed"))
      | .exhausted => some (no_attribute "events_failed")
  | .checkpointing _ => some (no_attribute "last_processed_id")
  | .completing _ => some (no_attribute "status")
  | .failing _ => some (no_attribute "status")

/-! ## The system

A state keeps the row that was last there beside the word that it is gone, so that the workers'
part of it can be compared with a system in which nothing is deleted. No step looks at that row
any more, which `step_without_row_blind` proves. -/

/-- The system around a job that may be deleted: the row of `job` is the job's, as long as
there is one. -/
structure Sys where
  job : Job.Sys
  deleted : Bool
  /-- The deletions in flight. -/
  deletes : Nat → Option DeleteTx

def Sys.row (s : Sys) : Option ReplayJob := if s.deleted then none else some s.job.row

inductive Action
  | job (a : Job.Action)
  /-- A deletion reads the job, or is refused. -/
  | delete_read (i : Nat)
  /-- Its transaction commits. -/
  | delete_commit (i : Nat)
  /-- Its transaction is rolled back. -/
  | delete_abort (i : Nat)

def Sys.initial (speed_factor : Rat) (world : World) (clock : Nat) : Sys :=
  { job := .initial speed_factor world clock, deleted := false, deletes := fun _ => none }

/-- The steps when the row is gone; `s.row` is not looked at. -/
def step_without_row (cfg : Config) (s : Job.Sys) : Job.Action → Option Job.Sys
  | .api_read i _ =>
      -- a 404 response
      match s.api i with
      | some _ => none
      | none => some s
  | .api_commit i =>
      -- every operation sets `updated_at`, its `UPDATE` matches no row, and the session is
      -- rolled back
      match s.api i with
      | some _ => some { s with api := Function.update s.api i none }
      | none => none
  -- the subquery finds no job
  | .acquire _ => none
  | .go w input => (go_without_row cfg s.world (s.workers w) input).map (s.move w)
  | .renew w =>
      -- the `UPDATE` matches no row, which is no error here
      if (s.workers w).renewing then
        some (s.set_worker w { s.workers w with renewing := false })
      else none
  -- the others touch no row
  | a => Job.step cfg s a

/-- Without a row none is committed. -/
theorem go_without_row_commit {cfg : Config} {world : World} {wk : Worker} {input : Input}
    {m : Move} (h : go_without_row cfg world wk input = some m) : m.commit = none := by
  unfold go_without_row at h
  repeat' split at h
  all_goals
    first
    | (cases h; rfl)
    | cases h

/-- The row that was is neither read nor written: the steps are the same on any other, and
leave it as it is. -/
theorem step_without_row_blind (cfg : Config) (s : Job.Sys) (a : Job.Action) (row : ReplayJob) :
    step_without_row cfg { s with row := row } a
      = (step_without_row cfg s a).map fun t => { t with row := row } := by
  cases a with
  | tick ms | api_abort i | renew_fail w | stop w | crash w => rfl
  | acquire w => rfl
  | xadd e | produce p m | renew_start w | renew w =>
      simp only [step_without_row, Job.step]
      split <;> rfl
  | api_read i op | api_commit i | leave w =>
      simp only [step_without_row, Job.step]
      split <;> rfl
  | boot w =>
      simp only [step_without_row, Job.step]
      split
      · split <;> rfl
      · rfl
  | raise w error =>
      simp only [step_without_row, Job.step, Option.map_map]
      rfl
  | go w input =>
      simp only [step_without_row]
      cases hm : go_without_row cfg s.world (s.workers w) input with
      | none => rfl
      | some m =>
          have hcommit := go_without_row_commit hm
          simp only [Option.map_some, Sys.move, hcommit]

def step (cfg : Config) (s : Sys) : Action → Option Sys
  | .job a =>
      (if s.deleted then step_without_row cfg s.job a else Job.step cfg s.job a).map fun job =>
        { s with job := job }
  | .delete_read i =>
      match s.deletes i with
      | some _ => none
      | none =>
          match get_job_or_404 s.row >>= delete_job with
          | .ok tx => some { s with deletes := Function.update s.deletes i (some tx) }
          | .error _ => some s
  | .delete_commit i =>
      -- `DELETE … WHERE id`: what the row holds by then does not matter
      match s.deletes i with
      | some _ => some { s with deleted := true, deletes := Function.update s.deletes i none }
      | none => none
  | .delete_abort i => some { s with deletes := Function.update s.deletes i none }

/-! ## The run that the workers are in

A run with deletions is turned into one without, action by action: a transaction that finds no
row becomes one that raises, an `UPDATE` that matches no row becomes nothing. The steps are
proved to be those of `Job.step`, which is a definition of its own, so whatever is proved of its
runs holds of the workers of a deleted job. -/

/-- What an action comes to when the row is gone: nothing, or a step that fails. -/
def without_row (s : Job.Sys) : Job.Action → Option Job.Action
  | .api_read _ _ => none
  | .api_commit i => some (.api_abort i)
  | .acquire _ => none
  | .go w input =>
      match missing_row (s.workers w).phase with
      | some error => some (.raise w error)
      | none => some (.go w input)
  | .renew w => some (.renew_fail w)
  | a => some a

/-- What an action comes to in the system without deletions. -/
def Sys.comes_to (s : Sys) : Action → Option Job.Action
  | .job a => if s.deleted then without_row s.job a else some a
  | _ => none

/-- The run of the system without deletions. -/
def job_trace (tr : List (Sys × Action)) : List (Job.Sys × Job.Action) :=
  seen Sys.job Sys.comes_to tr

/-- The calls of `ReplayEvent`: the worker and the event. -/
def job_calls (s : Job.Sys) : Job.Action → List (Nat × ReplayEvent)
  | .go w _ =>
      match (s.workers w).phase with
      | .in_hand _ _ event (.ready _) => [(w, event)]
      | _ => []
  | _ => []

def Sys.calls (s : Sys) : Action → List (Nat × ReplayEvent)
  | .job a => job_calls s.job a
  | _ => []

section

variable {cfg : Config}

/-- A worker that an exception takes to another phase. -/
theorem raise_eq {s : Job.Sys} {w : Nat} {error : String} {phase : Phase}
    (h : (s.workers w).phase.raised error = some phase) :
    Job.step cfg s (.raise w error) = some (s.move w ((s.workers w).to phase)) := by
  simp only [Job.step, h, Option.map_some]
  simp [Sys.move, Sys.set_worker, Worker.to]

/-- The commit of an object that was not changed leaves the row as it is. -/
theorem move_unchanged {s : Job.Sys} {w : Nat} (wk : Worker) (base : ReplayJob)
    (acked advanced : Option MessageId) :
    s.move w { worker := wk, commit := some (base, base), acked := acked, advanced := advanced }
      = s.move w { worker := wk, commit := none, acked := acked, advanced := advanced } := by
  simp only [Sys.move, flush_self]

/-- A record of progress always changes the row. -/
theorem progress_ne {stream : Stream} {event : ReplayEvent} {was_dup : Bool} {now : Nat}
    (base : ReplayJob) : (WorkerTx.progress stream event was_dup now).body base ≠ base := by
  intro heq
  cases was_dup with
  | true =>
      have hcount := congrArg ReplayJob.events_skipped_dedup heq
      simp [WorkerTx.body] at hcount
  | false =>
      have hcount := congrArg ReplayJob.events_processed heq
      simp [WorkerTx.body] at hcount

theorem advanced_of_unchanged {tx : WorkerTx} {base : ReplayJob} (h : tx.body base = base) :
    tx.advanced = none := by
  cases tx with
  | progress stream event was_dup now => exact absurd h (progress_ne base)
  | _ => rfl

/-- **One piece of code without its row** raises where `missing_row` says so, and comes to the
phase an exception leads to; elsewhere it does what it does with any row. -/
theorem go_without_row_spec {s t : Job.Sys} {w : Nat} {input : Input}
    (h : (go_without_row cfg s.world (s.workers w) input).map (s.move w) = some t) :
    Job.step cfg s (match missing_row (s.workers w).phase with
      | some error => .raise w error
      | none => .go w input) = some t := by
  obtain ⟨m, hm, rfl⟩ := Option.map_eq_some_iff.mp h
  clear h
  unfold go_without_row at hm
  cases hph : (s.workers w).phase with
  | idle => rw [hph] at hm; cases hm
  | acquired =>
      rw [hph] at hm
      cases hm
      exact raise_eq (by rw [hph]; rfl)
  -- pieces that begin with a `db.get`
  | fetched job | checkpointing job | completing stream | failing error =>
      rw [hph] at hm
      cases hm
      exact raise_eq (by rw [hph]; rfl)
  | writing base tx =>
      simp only [hph] at hm
      by_cases hsame : tx.body base = base
      · -- nothing to write: the commit goes through, and the step is the worker's own
        rw [if_pos hsame] at hm
        cases hm
        simp only [missing_row, if_pos hsame, Job.step, Worker.go, hph, Option.map_some,
          advanced_of_unchanged hsame]
        rw [hsame, move_unchanged]
      · rw [if_neg hsame] at hm
        simp only [missing_row, if_neg hsame]
        cases tx with
        | fail error | setup source count | progress stream event was_dup now
        | event_failed event attempts now | checkpoint last_id now | complete stream now =>
            cases hm
            exact raise_eq (by rw [hph]; rfl)
  -- the generator has no use for the row
  | streaming job stream =>
      simp only [hph] at hm
      simp only [missing_row, Job.step, Worker.go, hph]
      exact congrArg (Option.map (s.move w)) hm
  | in_hand job stream event stage =>
      simp only [hph] at hm
      cases stage with
      | yielded | ready attempt | awaiting attempt =>
          simp only at hm
          simp only [missing_row, Job.step, Worker.go, hph, hm, Option.map_some]
      -- the status check and the last attempt read the row, a call or its answer does not
      | checking | exhausted =>
          cases hm
          exact raise_eq (by rw [hph]; rfl)
      | acked was_dup =>
          cases was_dup with
          | true | false =>
              cases hm
              exact raise_eq (by rw [hph]; rfl)

theorem step_without_row_spec {s t : Job.Sys} {a : Job.Action}
    (h : step_without_row cfg s a = some t) :
    (∀ b, without_row s a = some b → Job.step cfg s b = some t) ∧
      (without_row s a = none → t = s) := by
  cases a with
  -- the job is not found, and nothing is begun
  | api_read i op =>
      simp only [step_without_row] at h
      split at h
      · cases h
      · cases h
        refine ⟨?_, fun _ => rfl⟩
        rintro _ ⟨⟩
  | api_commit i =>
      simp only [step_without_row] at h
      split at h
      · refine ⟨?_, fun hnone => by cases hnone⟩
        rintro _ ⟨⟩
        exact h
      · cases h
  | acquire w => cases h
  -- a piece of the worker's code, with a row or without
  | go w input =>
      have hgo := go_without_row_spec h
      simp only [without_row]
      cases hrow : missing_row (s.workers w).phase with
      | some error =>
          rw [hrow] at hgo
          refine ⟨?_, fun hnone => by cases hnone⟩
          rintro _ ⟨⟩
          exact hgo
      | none =>
          rw [hrow] at hgo
          refine ⟨?_, fun hnone => by cases hnone⟩
          rintro _ ⟨⟩
          exact hgo
  -- the `UPDATE` of the renewal matches no row
  | renew w =>
      simp only [step_without_row] at h
      split at h
      · cases h
        refine ⟨?_, fun hnone => by cases hnone⟩
        rintro _ ⟨⟩
        rfl
      · cases h
  -- what is left has no use for the row, and is the step it was
  | _ =>
      refine ⟨?_, fun hnone => by cases hnone⟩
      rintro _ ⟨⟩
      exact h

/-- **One step** is a step of the system without deletions, or none. -/
theorem step_abstracts : Abstracts (step cfg) (Job.step cfg) Sys.job Sys.comes_to := by
  intro s a t hs
  cases a with
  | job a =>
      obtain ⟨job, hjob, rfl⟩ := Option.map_eq_some_iff.mp hs
      by_cases hdeleted : s.deleted = true
      · rw [if_pos hdeleted] at hjob
        simp only [Sys.comes_to, if_pos hdeleted]
        exact step_without_row_spec hjob
      · rw [if_neg hdeleted] at hjob
        simp only [Sys.comes_to, if_neg hdeleted]
        refine ⟨?_, fun hnone => by cases hnone⟩
        rintro _ ⟨⟩
        exact hjob
  -- the request writes nothing but its own state, and the row that goes is not the system's
  | delete_read i =>
      refine ⟨?_, fun _ => ?_⟩
      · rintro _ ⟨⟩
      · simp only [step] at hs
        split at hs
        · cases hs
        · split at hs <;> cases hs <;> rfl
  | delete_commit i =>
      refine ⟨?_, fun _ => ?_⟩
      · rintro _ ⟨⟩
      · simp only [step] at hs
        split at hs <;> cases hs
        rfl
  | delete_abort i =>
      cases hs
      refine ⟨?_, fun _ => rfl⟩
      rintro _ ⟨⟩

/-- A call needs no row. -/
theorem job_calls_of_missing {s : Job.Sys} {w : Nat} {error : String}
    (h : missing_row (s.workers w).phase = some error) (input : Input) :
    job_calls s (.go w input) = [] := by
  simp only [job_calls]
  split
  · rename_i hph
    rw [hph] at h
    cases h
  · rfl

/-- **Deletions are failures.** A run in which the job is deleted is, for its workers, their
stores and the replayer, a run in which it is not and the transactions of the deleted job fail:
it ends in the same workers, the same logs and the same acknowledgements, and the replayer has
been called with the same events in the same order. -/
theorem deletions_are_failures {s₀ s : Sys} {tr : List (Sys × Action)}
    (hrun : Run (step cfg) s₀ tr s) :
    Run (Job.step cfg) s₀.job (job_trace tr) s.job ∧
      shown job_calls (job_trace tr) = shown Sys.calls tr := by
  refine ⟨step_abstracts.run hrun, shown_seen ?_ ?_ tr⟩
  · -- a call is made by the same actions of both runs
    intro s a b hb
    cases a with
    | job a =>
        by_cases hdeleted : s.deleted = true
        · simp only [Sys.comes_to, if_pos hdeleted] at hb
          cases a with
          | go w input =>
              simp only [without_row] at hb
              split at hb <;> cases hb
              · rename_i error hrow
                exact (job_calls_of_missing hrow input).symm
              · rfl
          | api_read i op => cases hb
          | acquire w => cases hb
          | _ => cases hb; rfl
        · simp only [Sys.comes_to, if_neg hdeleted] at hb
          cases hb
          rfl
    | _ => cases hb
  · -- and an action that comes to nothing makes none
    intro s a ha
    cases a with
    | job a =>
        by_cases hdeleted : s.deleted = true
        · simp only [Sys.comes_to, if_pos hdeleted] at ha
          cases a with
          | go w input =>
              simp only [without_row] at ha
              split at ha <;> cases ha
          | api_read i op => rfl
          | acquire w => rfl
          | _ => cases ha
        · simp only [Sys.comes_to, if_neg hdeleted] at ha
          cases ha
    | _ => rfl

end

/-- Worker `0` is past the check with the first of two messages when the job is cancelled and
deleted. -/
def deleting_actions : List Action :=
  in_hand_actions.map .job ++
    [.job (.api_abort 0), .job (.api_read 0 .cancel), .job (.api_commit 0),
      .delete_read 0, .delete_commit 0]

/-- It gets the message through, finds no row to record it in, and none to record its failure. -/
def leaving_actions : List Action := (going 0 [{}, { success := true }, {}, {}]).map .job

/-- The worker sends the one message and is idle again. -/
theorem deletions_are_failures_leaving :
    ∃ tr s, Run (step short_config) (Sys.initial 1 empty_world 0) tr s ∧
      (s.row = none ∧ s.job.acked.length = 1 ∧ s.job.advanced = []) ∧
      Run (Job.step short_config) (Sys.initial 1 empty_world 0).job (job_trace tr) s.job ∧
      shown job_calls (job_trace tr) = shown Sys.calls tr := by
  have hrun : ∃ tr s, Run (step short_config) (Sys.initial 1 empty_world 0) tr s ∧
      (s.row = none ∧ s.job.acked.length = 1 ∧ s.job.advanced = []) :=
    exists_run_of_exec (deleting_actions ++ leaving_actions) (by decide)
  obtain ⟨tr, s, hrun, hs⟩ := hrun
  exact ⟨tr, s, hrun, hs, deletions_are_failures hrun⟩

/-! ## A worker of a deleted job

What is left for the worker is one event at most. It needs a row to take the next event past the
status check, so the event it has in hand when the row goes is the last. -/

/-- The action needs no row. -/
def NeedsNoRow (s : Job.Sys) : Job.Action → Prop
  | .acquire _ => False
  | .go w _ => missing_row (s.workers w).phase = none
  | _ => True

/-- The event a worker is past its check with and has no answer for yet. -/
def unanswered : Phase → Option ReplayEvent
  | .in_hand _ _ event (.ready _) => some event
  | .in_hand _ _ event (.awaiting _) => some event
  | _ => none

/-- The step answers a call of worker `w` with success or duplicate. -/
def acknowledges (w : Nat) (p : Sys × Action) : Bool :=
  match p.2, (p.1.job.workers w).phase with
  | .job (.go v input), .in_hand _ _ _ (.awaiting _) =>
      decide (v = w) && (input.success || input.was_duplicate)
  | _, _ => false

section

variable {cfg : Config}

theorem without_row_needs_none {s : Job.Sys} {a b : Job.Action} (h : without_row s a = some b) :
    NeedsNoRow s b := by
  cases a with
  | go w input =>
      simp only [without_row] at h
      split at h <;> cases h
      · trivial
      · rename_i hrow
        exact hrow
  | acquire w => cases h
  | api_read i op => cases h
  | _ => cases h; trivial

/-- Without its row, a worker gets past no further check. -/
theorem unanswered_of_step {s t : Job.Sys} {a : Job.Action} (h : NeedsNoRow s a)
    (hs : Job.step cfg s a = some t) (w : Nat) :
    unanswered (t.workers w).phase = none ∨
      unanswered (t.workers w).phase = unanswered (s.workers w).phase := by
  refine phase_holds (Q := fun phase => unanswered phase = none ∨
    unanswered phase = unanswered (s.workers w).phase) (Or.inl rfl) (Or.inl rfl)
    (fun _ => Or.inl rfl) hs (Or.inr rfl) ?_
  rintro input m rfl hm -
  cases Worker.went hm with
  | may_send job stream event hph =>
      simp only [NeedsNoRow, hph] at h
      cases h
  | committed base tx hph =>
      left
      cases tx with
      | setup source count =>
          simp only [Worker.after_commit]
          split <;> rfl
      | _ => rfl
  | sent job stream event attempt hph | retried job stream event attempt hph =>
      right
      rw [hph]
      rfl
  | _ => exact Or.inl rfl

/-- Without a row, no checkpoint is advanced. -/
theorem advanced_of_step {s t : Job.Sys} {a : Job.Action} (h : NeedsNoRow s a)
    (hs : Job.step cfg s a = some t) : t.advanced = s.advanced := by
  cases step_took hs with
  | go w input m hm =>
      have hnone : m.advanced = none := by
        cases Worker.went hm with
        | committed base tx hph =>
            cases tx with
            | progress stream event was_dup now =>
                simp only [NeedsNoRow, hph, missing_row, if_neg (progress_ne base)] at h
                cases h
            | _ => rfl
        | _ => rfl
      simp [Sys.move, hnone]
  | _ => rfl

variable {s t : Sys} {a : Action} {tr : List (Sys × Action)}

/-- The row never comes back. -/
theorem deleted_of_step (h : s.deleted = true) (hs : step cfg s a = some t) :
    t.deleted = true := by
  cases a with
  | job a =>
      obtain ⟨job, -, rfl⟩ := Option.map_eq_some_iff.mp hs
      exact h
  | delete_read i =>
      simp only [step] at hs
      split at hs
      · cases hs
      · split at hs <;> cases hs <;> exact h
  | delete_commit i =>
      simp only [step] at hs
      split at hs <;> cases hs
      rfl
  | delete_abort i =>
      cases hs
      exact h

theorem deleted_mem (h : s.deleted = true) (hrun : Run (step cfg) s tr t) :
    StepsMeet (fun s _ => s.deleted = true) tr :=
  hrun.invariant_mem (C := fun _ _ => True) (fun _ _ _ h _ hs => deleted_of_step h hs) h
    fun _ _ => trivial

theorem needs_no_row (h : s.deleted = true) {b : Job.Action} (hb : s.comes_to a = some b) :
    NeedsNoRow s.job b := by
  cases a with
  | job a =>
      simp only [Sys.comes_to, if_pos h] at hb
      exact without_row_needs_none hb
  | _ => cases hb

/-- A step of the system with the job deleted is a step of the other system that needs no row,
or leaves its state. -/
theorem step_deleted (h : s.deleted = true) (hs : step cfg s a = some t) :
    t.job = s.job ∨ ∃ b, NeedsNoRow s.job b ∧ Job.step cfg s.job b = some t.job := by
  obtain ⟨hsome, hnone⟩ := step_abstracts s a t hs
  cases hb : s.comes_to a with
  | none => exact Or.inl (hnone hb)
  | some b => exact Or.inr ⟨b, needs_no_row h hb, hsome b hb⟩

/-- A worker that gets its answer is past the call. -/
theorem unanswered_of_acknowledges {w : Nat} (h : s.deleted = true) (hs : step cfg s a = some t)
    (hack : acknowledges w (s, a) = true) :
    (unanswered (s.job.workers w).phase).isSome = true ∧
      unanswered (t.job.workers w).phase = none := by
  unfold acknowledges at hack
  split at hack
  · rename_i v input job stream event attempt ha hph
    rw [Bool.and_eq_true, decide_eq_true_eq] at hack
    obtain ⟨rfl, hanswer⟩ := hack
    dsimp only at ha hph
    subst ha
    simp only [step, if_pos h, step_without_row, go_without_row, hph, hanswer, if_true,
      Option.map_some, Option.some.injEq] at hs
    subst hs
    rw [hph]
    simp only [Sys.move, Function.update_self]
    exact ⟨rfl, rfl⟩
  · cases hack

/-- A call is made with the event in hand. -/
theorem unanswered_of_calls {w : Nat} {event : ReplayEvent} (h : (w, event) ∈ s.calls a) :
    unanswered (s.job.workers w).phase = some event := by
  cases a with
  | job a =>
      cases a with
      | go v input =>
          simp only [Sys.calls, job_calls] at h
          split at h
          · rename_i hph
            obtain ⟨rfl, rfl⟩ := Prod.mk.inj (List.mem_singleton.mp h)
            rw [hph]
            rfl
          · cases h
      | _ => cases h
  | _ => cases h

/-- **A deleted job is left alone.** Once a deletion has committed, there never is a row of the
job again; no worker acquires it and no checkpoint is advanced; and each worker that was
executing it gets one further event acknowledged at most, all its calls being made with the
one event it was past its check with and had no answer for. -/
theorem deleted_job_left_alone (hdeleted : s.deleted = true) (hrun : Run (step cfg) s tr t)
    (w : Nat) :
    t.row = none ∧ (∀ p ∈ tr, p.2 ≠ .job (.acquire w)) ∧ t.job.advanced = s.job.advanced ∧
      tr.countP (acknowledges w) ≤ 1 ∧
      ∀ p ∈ tr, ∀ event, (w, event) ∈ p.1.calls p.2 →
        unanswered (s.job.workers w).phase = some event := by
  have hmem := deleted_mem hdeleted hrun
  -- the event that is unanswered is the one that was, or none, and the answer uses it up
  have hheld : ∀ {tr' : List (Sys × Action)} {u : Sys}, Run (step cfg) s tr' u →
      StepsMeet (fun s _ => s.deleted = true) tr' →
      (unanswered (u.job.workers w).phase = none ∨
        unanswered (u.job.workers w).phase = unanswered (s.job.workers w).phase) ∧
      tr'.countP (acknowledges w) + (unanswered (u.job.workers w).phase).isSome.toNat ≤ 1 := by
    intro tr' u hrun' hmem'
    refine hrun'.holding (C := fun s _ => s.deleted = true)
      (fun s => unanswered (s.job.workers w).phase) (acknowledges w) (fun s a t h hs => ?_)
      (fun s a t h hs => unanswered_of_acknowledges h hs) hmem'
    rcases step_deleted h hs with hsame | ⟨b, hb, hjob⟩
    · exact Or.inr (by rw [hsame])
    · exact unanswered_of_step hb hjob w
  refine ⟨?_, ?_, ?_, (Nat.le_add_right _ _).trans (hheld hrun hmem).2, ?_⟩
  · have hlast : t.deleted = true := hrun.invariant (C := fun _ _ => True)
      (I := fun u => u.deleted = true) (fun _ _ _ h _ hs => deleted_of_step h hs) hdeleted
      fun _ _ => trivial
    rw [Sys.row, if_pos hlast]
  · intro p hp ha
    obtain ⟨u, hu⟩ := hrun.enabled p hp
    rw [ha] at hu
    simp [step, if_pos (hmem p hp), step_without_row] at hu
  · refine hrun.invariant (C := fun s _ => s.deleted = true)
      (I := fun u => u.job.advanced = s.job.advanced) (fun u a v h hu hs => ?_) rfl hmem
    rcases step_deleted hu hs with hsame | ⟨b, hb, hjob⟩
    · rw [hsame, h]
    · rw [advanced_of_step hb hjob, h]
  · intro p hp event hcall
    obtain ⟨older, newer, rfl⟩ := List.append_of_mem hp
    have hbefore := Run.before (p := p) hrun (List.suffix_append older (p :: newer))
    have hkept := (hheld hbefore fun q hq => hmem q (by simp [hq])).1
    rw [unanswered_of_calls hcall] at hkept
    exact (hkept.resolve_left fun hnone => by cases hnone).symm

/-- The worker whose job is deleted under its hands. -/
theorem deleted_job_left_alone_leaving :
    ∃ tr₀ s tr t, Run (step short_config) (Sys.initial 1 empty_world 0) tr₀ s ∧
      s.deleted = true ∧ Run (step short_config) s tr t ∧ t.job.acked.length = 1 ∧
      t.row = none ∧ (∀ p ∈ tr, p.2 ≠ .job (.acquire 0)) ∧ t.job.advanced = s.job.advanced ∧
      tr.countP (acknowledges 0) ≤ 1 ∧
      ∀ p ∈ tr, ∀ event, (0, event) ∈ p.1.calls p.2 →
        unanswered (s.job.workers 0).phase = some event := by
  obtain ⟨tr₀, s, hrun₀, hdeleted, hend⟩ :
      ∃ tr₀ s, Run (step short_config) (Sys.initial 1 empty_world 0) tr₀ s ∧ s.deleted = true ∧
        (exec (step short_config) s leaving_actions).map (fun t => t.job.acked.length) = some 1 :=
    exists_run_of_exec deleting_actions (by decide)
  obtain ⟨t, ht, hacked⟩ := Option.map_eq_some_iff.mp hend
  have hrun := run_trace ht
  exact ⟨tr₀, s, _, t, hrun₀, hdeleted, hrun, hacked, deleted_job_left_alone hdeleted hrun 0⟩

/-! ## The end of its execution

A worker without its row still has a next piece of code in every phase, and the rank that bounds
an execution bounds the rest of this one. Together they bring it back to the loop of `start`. -/

theorem exists_go_without_row (cfg : Config) (world : World) {wk : Worker} (h : wk.phase ≠ .idle)
    (input : Input) : ∃ m, go_without_row cfg world wk input = some m := by
  unfold go_without_row
  split
  · rename_i hph
    exact absurd hph h
  · exact ⟨_, rfl⟩
  · exact ⟨_, rfl⟩
  · split
    · exact ⟨_, rfl⟩
    · split <;> exact ⟨_, rfl⟩
  · split <;> exact ⟨_, rfl⟩
  · split
    · split <;> exact ⟨_, rfl⟩
    · exact ⟨_, rfl⟩
    · exact ⟨_, rfl⟩
    · split
      · exact ⟨_, rfl⟩
      · split <;> exact ⟨_, rfl⟩
    · exact ⟨_, rfl⟩
    · exact ⟨_, rfl⟩
    · exact ⟨_, rfl⟩
  · exact ⟨_, rfl⟩
  · exact ⟨_, rfl⟩
  · exact ⟨_, rfl⟩

/-- A worker that is not idle has a piece of code that gets it on, its row being gone. -/
theorem exists_step {w : Nat} (h : s.deleted = true) (hexec : Executing cfg w s.job)
    (hbusy : (s.job.workers w).phase ≠ .idle) :
    ∃ input t, step cfg s (.job (.go w input)) = some t ∧
      (t.job.workers w).phase.rank cfg t.job.world
        < (s.job.workers w).phase.rank cfg s.job.world := by
  obtain ⟨choice, hnot⟩ := Phase.exists_not_stalls hexec.live
  obtain ⟨m, hm⟩ := exists_go_without_row cfg s.job.world hbusy { choice := choice }
  have hgone : (go_without_row cfg s.job.world (s.job.workers w) { choice := choice }).map
      (s.job.move w) = some (s.job.move w m) := by rw [hm, Option.map_some]
  refine ⟨{ choice := choice }, { s with job := s.job.move w m }, ?_, ?_⟩
  · simp only [step, if_pos h, step_without_row, hgone, Option.map_some]
  · -- the step it comes to is paid for by the rank, whichever it is
    have hstep := go_without_row_spec hgone
    cases hrow : missing_row (s.job.workers w).phase with
    | some error =>
        rw [hrow] at hstep
        have hpaid := hexec.pay (a := .raise w error) trivial hstep
        rw [if_pos (show Works w s.job (.raise w error) from rfl)] at hpaid
        exact hpaid
    | none =>
        rw [hrow] at hstep
        have hpaid := hexec.pay (a := .go w { choice := choice }) trivial hstep
        rw [if_pos (show Works w s.job (.go w { choice := choice }) from ⟨rfl, hnot⟩)] at hpaid
        exact hpaid

theorem executing_of_step {w : Nat} (h : Executing cfg w s.job) (hs : step cfg s a = some t) :
    Executing cfg w t.job := by
  obtain ⟨hsome, hnone⟩ := step_abstracts s a t hs
  cases hb : s.comes_to a with
  | none => rwa [hnone hb]
  | some b => exact h.step (hsome b hb)

/-- **The execution of a deleted job ends.** Whatever the other workers and the producers do,
the steps that a worker still takes, idle polls of the consumer apart, are paid for by what it
had left when the job was deleted and by what was added to the logs; and wherever it is, its
own code alone leads it back to its loop. -/
theorem deleted_job_execution_ends {speed_factor : Rat} {world : World} {clock : Nat}
    {tr₀ : List (Sys × Action)} (hsorted : world.Sorted)
    (hrun₀ : Run (step cfg) (Sys.initial speed_factor world clock) tr₀ s)
    (hdeleted : s.deleted = true) (hrun : Run (step cfg) s tr t) (w : Nat) :
    (t.job.workers w).phase.rank cfg t.job.world + worked w (job_trace tr)
        ≤ (s.job.workers w).phase.rank cfg s.job.world + total (feed cfg w) (job_trace tr) ∧
      ∃ tr' u, Run (step cfg) t tr' u ∧
        StepsMeet (fun _ a => ∃ input, a = .job (.go w input)) tr' ∧
        (u.job.workers w).phase = .idle := by
  have hexec : Executing cfg w s.job := executing_of_run hsorted (step_abstracts.run hrun₀) w
  have hmem := deleted_mem hdeleted hrun
  refine ⟨hexec.paid (step_abstracts.run hrun) (stepsMeet_seen.mpr fun p hp b hb => ?_), ?_⟩
  · have hneeds := needs_no_row (hmem p hp) hb
    cases b with
    | acquire v => exact hneeds.elim
    | _ => trivial
  · have hlast : t.deleted = true ∧ Executing cfg w t.job := hrun.invariant (C := fun _ _ => True)
      (I := fun u => u.deleted = true ∧ Executing cfg w u.job)
      (fun _ _ _ h _ hs => ⟨deleted_of_step h.1 hs, executing_of_step h.2 hs⟩) ⟨hdeleted, hexec⟩
      fun _ _ => trivial
    obtain ⟨tr', u, hrun', hown, -, hidle⟩ : ∃ tr' u, Run (step cfg) t tr' u ∧
        StepsMeet (fun _ a => ∃ input, a = .job (.go w input)) tr' ∧
        (u.deleted = true ∧ Executing cfg w u.job) ∧ (u.job.workers w).phase = .idle := by
      refine exists_run_of_rank (fun u => (u.job.workers w).phase.rank cfg u.job.world) ?_ hlast
      rintro u ⟨hu, hexec⟩ hbusy
      obtain ⟨input, v, hv, hlt⟩ := exists_step hu hexec hbusy
      exact ⟨_, v, ⟨input, rfl⟩, hv, ⟨deleted_of_step hu hv, executing_of_step hexec hv⟩, hlt⟩
    exact ⟨tr', u, hrun', hown, hidle⟩

/-- The four steps of the worker whose job was deleted under its hands. -/
theorem deleted_job_execution_ends_four :
    ∃ tr₀ s tr t, Run (step short_config) (Sys.initial 1 empty_world 0) tr₀ s ∧
      s.deleted = true ∧ Run (step short_config) s tr t ∧
      (s.job.workers 0).phase.rank short_config s.job.world = 30 ∧ worked 0 (job_trace tr) = 4 ∧
      (t.job.workers 0).phase.rank short_config t.job.world + worked 0 (job_trace tr)
        ≤ (s.job.workers 0).phase.rank short_config s.job.world
          + total (feed short_config 0) (job_trace tr) ∧
      ∃ tr' u, Run (step short_config) t tr' u ∧
        StepsMeet (fun _ a => ∃ input, a = .job (.go 0 input)) tr' ∧
        (u.job.workers 0).phase = .idle := by
  obtain ⟨tr₀, s, hrun₀, hdeleted, hrank, hworked, hend⟩ :
      ∃ tr₀ s, Run (step short_config) (Sys.initial 1 empty_world 0) tr₀ s ∧ s.deleted = true ∧
        (s.job.workers 0).phase.rank short_config s.job.world = 30 ∧
        worked 0 (job_trace (trace (step short_config) s leaving_actions)) = 4 ∧
        (exec (step short_config) s leaving_actions).isSome = true :=
    exists_run_of_exec deleting_actions (by decide)
  obtain ⟨t, ht⟩ := Option.isSome_iff_exists.mp hend
  have hrun := run_trace ht
  exact ⟨tr₀, s, _, t, hrun₀, hdeleted, hrun, hrank, hworked,
    deleted_job_execution_ends empty_world_sorted hrun₀ hdeleted hrun 0⟩

/-! ## What is deleted

The deletion checks the status it has read. It deletes what it saw if nobody writes the status
where the row does not allow it; the two runs at the end show a job that is running when it is
deleted, by way of a transition that overtakes another. -/

/-- The deletions in flight have read the status that the job has. -/
def SeesStatus (s : Sys) : Prop :=
  s.deleted = false → ∀ i tx, s.deletes i = some tx → s.job.row.status = tx.base.status

/-- A step that writes the status only where it may keeps it from changing under a deletion. -/
theorem SeesStatus.step (h : SeesStatus s)
    (hallows : ∀ b, s.comes_to a = some b → StatusAllows s.job b)
    (hs : Deletion.step cfg s a = some t) : SeesStatus t := by
  cases a with
  | job a =>
      obtain ⟨job, hjob, rfl⟩ := Option.map_eq_some_iff.mp hs
      intro hdeleted i tx htx
      have hstatus : s.job.row.status = tx.base.status := h hdeleted i tx htx
      have hnot : ¬ s.deleted = true := by
        rw [hdeleted]
        exact Bool.false_ne_true
      rw [if_neg hnot] at hjob
      -- the deletion in flight saw a terminal status, and no step that is allowed leaves one
      have hlegal := (legal_step_iff hjob).mpr (hallows a (by simp only [Sys.comes_to, if_neg hnot]))
      rw [← hstatus]
      exact hlegal.eq_of_terminal (by rw [hstatus]; exact tx.terminal)
  | delete_read i =>
      simp only [Deletion.step] at hs
      split at hs
      · cases hs
      · split at hs
        · rename_i tx hread
          cases hs
          intro hdeleted j tx' htx'
          dsimp only at hdeleted htx' ⊢
          by_cases hij : j = i
          · subst hij
            rw [Function.update_self, Option.some.injEq] at htx'
            subst htx'
            have hnot : ¬ s.deleted = true := by
              rw [hdeleted]
              exact Bool.false_ne_true
            rw [Sys.row, if_neg hnot] at hread
            -- it keeps the row as it reads it
            change delete_job s.job.row = .ok tx at hread
            unfold delete_job at hread
            split at hread
            · cases hread
              rfl
            · cases hread
          · rw [Function.update_of_ne hij] at htx'
            exact h hdeleted j tx' htx'
        · cases hs
          exact h
  | delete_commit i =>
      simp only [Deletion.step] at hs
      -- afterwards the row is gone, and there is nothing to see
      split at hs <;> cases hs
      rintro ⟨⟩
  | delete_abort i =>
      cases hs
      intro hdeleted j tx htx
      dsimp only at htx
      by_cases hij : j = i
      · subst hij
        rw [Function.update_self] at htx
        cases htx
      · rw [Function.update_of_ne hij] at htx
        exact h hdeleted j tx htx

/-- **A deletion takes away what it has seen.** In every run whose writes of the status all
find the row in a status that allows them, a deletion that commits finds the job gone or in
the terminal status it was read in. -/
theorem deletes_what_it_saw {speed_factor : Rat} {world : World} {clock : Nat}
    (hrun : Run (step cfg) (Sys.initial speed_factor world clock) tr s)
    (hallows : StepsMeet StatusAllows (job_trace tr)) :
    ∀ p ∈ tr, ∀ i tx, p.2 = .delete_commit i → p.1.deletes i = some tx →
      ∀ row, p.1.row = some row →
        row.status = tx.base.status ∧ row.status.is_terminal = true := by
  intro p hp i tx _ htx row hrow
  have hinitial : SeesStatus (Sys.initial speed_factor world clock) := by
    rintro - i tx ⟨⟩
  have hsees := hrun.invariant_mem (fun _ _ _ h hC hs => h.step hC hs) hinitial
    (stepsMeet_seen.mp hallows) p hp
  unfold Sys.row at hrow
  split at hrow
  · cases hrow
  · rename_i hnot
    rw [Option.some.injEq] at hrow
    subst hrow
    have hstatus := hsees (by simpa using hnot) i tx htx
    exact ⟨hstatus, by rw [hstatus]; exact tx.terminal⟩

instance (s : Sys) (a : Action) : Decidable (∀ b, s.comes_to a = some b → StatusAllows s.job b) :=
  decidable_of_iff (∀ b ∈ s.comes_to a, StatusAllows s.job b) Iff.rfl

/-- Worker `0` leaves the job for `PAUSED`, having read it as `RUNNING`; before that is
committed the job is cancelled and a deletion finds it so. It is then resumed, and worker `1`
acquires it. -/
def overtaken_deletion : List Action :=
  [.produce 0 ⟨15, sampleRecord "1"⟩, .api_read 0 .start, .api_commit 0, .boot 0, .acquire 0,
    .go 0 {}, .go 0 {}, .go 0 {}, .go 0 {}, .go 0 {}, .go 0 {}, .stop 0, .go 0 {}, .go 0 {},
    .api_read 0 .cancel, .api_commit 0].map .job ++
  [.delete_read 0] ++
  [.go 0 {}, .api_read 0 .resume, .api_commit 0, .boot 1, .acquire 1].map .job

/-- The job of `deleting_actions` is deleted as `CANCELLED`. -/
theorem deletes_what_it_saw_cancelled :
    ∃ tr s, Run (step short_config) (Sys.initial 1 empty_world 0) tr s ∧ s.row = none ∧
      ∀ p ∈ tr, ∀ i tx, p.2 = .delete_commit i → p.1.deletes i = some tx →
        ∀ row, p.1.row = some row →
          row.status = tx.base.status ∧ row.status.is_terminal = true := by
  obtain ⟨tr, s, hrun, hallows, hrow⟩ :
      ∃ tr s, Run (step short_config) (Sys.initial 1 empty_world 0) tr s ∧
        StepsMeet (fun s a => ∀ b, s.comes_to a = some b → StatusAllows s.job b) tr ∧
        s.row = none :=
    exists_run_meeting_of_exec deleting_actions (by decide) (by decide)
  exact ⟨tr, s, hrun, hrow, deletes_what_it_saw hrun (stepsMeet_seen.mpr hallows)⟩

/-- Without the condition a deletion takes a running job away. -/
theorem running_job_deleted :
    ∃ tr s, Run (step short_config) (Sys.initial 1 empty_world 0) tr s ∧
      s.row.map ReplayJob.status = some .running ∧
      ∃ t, step short_config s (.delete_commit 0) = some t ∧ t.row = none := by
  have hrun : ∃ tr s, Run (step short_config) (Sys.initial 1 empty_world 0) tr s ∧
      s.row.map ReplayJob.status = some .running ∧
      (step short_config s (.delete_commit 0)).map Sys.row = some none :=
    exists_run_of_exec overtaken_deletion (by decide)
  obtain ⟨tr, s, hrun, hstatus, hstep⟩ := hrun
  obtain ⟨t, ht, hrow⟩ := Option.map_eq_some_iff.mp hstep
  exact ⟨tr, s, hrun, hstatus, t, ht, hrow⟩

end

end WalStream.Job.Deletion

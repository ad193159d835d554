/-
The lease columns against the status.

Every operation that leaves the status `RUNNING` clears `worker_id` and
`lease_expires_at`, and an acquisition sets all three. A clear is only written if the row
that was read had a worker, however: a transaction that read the job while nobody owned it
writes its new status alone, and if a worker acquired the job meanwhile the row keeps that
worker under a status that should have none. The results here are that this is the only
way the columns come apart, and that it happens.
-/
import WalStream.Job.System

set_option autoImplicit false

namespace WalStream.Job

open Lib Source

/-! ## The invariant, and what a transaction writes -/

/-- The worker and the lease are set when the status is `RUNNING`, and null otherwise. -/
def LeaseMatches (row : ReplayJob) : Prop :=
  if row.status = .running then row.worker_id ≠ none ∧ row.lease_expires_at ≠ none
  else row.worker_id = none ∧ row.lease_expires_at = none

instance (row : ReplayJob) : Decidable (LeaseMatches row) := by
  unfold LeaseMatches
  infer_instance

theorem leaseMatches_of_running {row : ReplayJob} (hs : row.status = .running)
    (hw : row.worker_id ≠ none) (hl : row.lease_expires_at ≠ none) : LeaseMatches row := by
  rw [LeaseMatches, if_pos hs]
  exact ⟨hw, hl⟩

theorem leaseMatches_of_not_running {row : ReplayJob} (hs : row.status ≠ .running)
    (hw : row.worker_id = none) (hl : row.lease_expires_at = none) : LeaseMatches row := by
  rw [LeaseMatches, if_neg hs]
  exact ⟨hw, hl⟩

theorem LeaseMatches.running {row : ReplayJob} (h : LeaseMatches row)
    (hs : row.status = .running) : row.worker_id ≠ none ∧ row.lease_expires_at ≠ none := by
  rwa [LeaseMatches, if_pos hs] at h

theorem LeaseMatches.not_running {row : ReplayJob} (h : LeaseMatches row)
    (hs : row.status ≠ .running) : row.worker_id = none ∧ row.lease_expires_at = none := by
  rwa [LeaseMatches, if_neg hs] at h

/-- An unowned row is not `RUNNING` and has no lease. -/
theorem LeaseMatches.unowned {row : ReplayJob} (h : LeaseMatches row)
    (hw : row.worker_id = none) : row.status ≠ .running ∧ row.lease_expires_at = none := by
  by_cases hs : row.status = .running
  · exact absurd hw (h.running hs).1
  · exact ⟨hs, (h.not_running hs).2⟩

/-- The invariant reads three columns only. -/
theorem leaseMatches_congr {row row' : ReplayJob} (hs : row'.status = row.status)
    (hw : row'.worker_id = row.worker_id) (hl : row'.lease_expires_at = row.lease_expires_at) :
    LeaseMatches row' ↔ LeaseMatches row := by
  rw [LeaseMatches, LeaseMatches, hs, hw, hl]

/-- What a transaction does to the three columns: it keeps them, or it moves to a status
other than `RUNNING` and clears the other two. -/
inductive LeaseWrite (base new : ReplayJob) : Prop
  | kept (status : new.status = base.status) (worker : new.worker_id = base.worker_id)
      (lease : new.lease_expires_at = base.lease_expires_at)
  | cleared (status : new.status ≠ .running) (worker : new.worker_id = none)
      (lease : new.lease_expires_at = none)

/-- An API operation on a row that satisfies the invariant. `start_job` and `resume_job` do
not clear the columns, but what they start from has them null. -/
theorem ApiStatus.leaseWrite {base new : ReplayJob} (h : ApiStatus base new)
    (hbase : LeaseMatches base) : LeaseWrite base new := by
  cases h with
  | same hs hw hl => exact .kept hs hw hl
  | released hs hw hl =>
      refine .cleared ?_ hw hl
      rcases hs with ⟨hs, _⟩ | ⟨hs, _⟩ <;> rw [hs] <;> decide
  | queued hs hbefore hw hl =>
      have hnot : base.status ≠ .running := by
        rcases hbefore with hb | hb <;> rw [hb] <;> decide
      obtain ⟨hw0, hl0⟩ := hbase.not_running hnot
      exact .cleared (by rw [hs]; decide) (hw.trans hw0) (hl.trans hl0)

/-- A worker's transaction. -/
theorem WorkerTx.leaseWrite (tx : WorkerTx) (base : ReplayJob) :
    LeaseWrite base (tx.body base) := by
  cases tx with
  | setup source count => exact .kept rfl rfl rfl
  | progress stream event was_dup now =>
      refine .kept ?_ ?_ ?_
      · simp only [WorkerTx.body, update_checkpoint_status]
        split <;> rfl
      · simp only [WorkerTx.body, update_checkpoint_worker_id]
        split <;> rfl
      · simp only [WorkerTx.body, update_checkpoint_lease_expires_at]
        split <;> rfl
  | event_failed event attempts now => exact .kept rfl rfl rfl
  | checkpoint last_id now => exact .cleared (by simp [WorkerTx.body]) rfl rfl
  | complete stream now => exact .cleared (by simp [WorkerTx.body]) rfl rfl
  | fail error => exact .cleared (by simp [WorkerTx.body]) rfl rfl

/-! ## One commit -/

/-- A transaction that read the job unowned and changes its status finds it unowned. -/
def FindsUnowned (base new row : ReplayJob) : Prop :=
  base.worker_id = none → new.status ≠ base.status → row.worker_id = none

/-- **One commit.** It keeps the invariant exactly when it does not change the status of a
row that was acquired since an unowned one was read. -/
theorem leaseMatches_flush_iff {base new row : ReplayJob} (hbase : LeaseMatches base)
    (hrow : LeaseMatches row) (hw : LeaseWrite base new) :
    LeaseMatches (flush base new row) ↔ FindsUnowned base new row := by
  cases hw with
  | kept hs hw hl =>
      have hkept : LeaseMatches (flush base new row) := by
        refine (leaseMatches_congr ?_ ?_ ?_).mpr hrow
        · simp only [flush, hs, written_self]
        · simp only [flush, hw, written_self]
        · simp only [flush, hl, written_self]
      exact ⟨fun _ _ hne => absurd hs hne, fun _ => hkept⟩
  | cleared hs hw hl =>
      by_cases hb : base.worker_id = none
      · -- the clear is not written
        have hl0 := (hbase.unowned hb).2
        have hworker : (flush base new row).worker_id = row.worker_id := by
          simp only [flush, hw, hb, written_self]
        have hlease : (flush base new row).lease_expires_at = row.lease_expires_at := by
          simp only [flush, hl, hl0, written_self]
        -- with the status unchanged nothing is written; with it, the row must be unowned
        by_cases hsame : new.status = base.status
        · have hstatus : (flush base new row).status = row.status := by
            simp only [flush, hsame, written_self]
          exact ⟨fun _ _ hne => absurd hsame hne,
            fun _ => (leaseMatches_congr hstatus hworker hlease).mpr hrow⟩
        · have hstatus : (flush base new row).status ≠ .running := by
            simp only [flush]
            rw [written_of_ne _ hsame]
            exact hs
          constructor
          · intro h _ _
            rw [← hworker]
            exact (h.not_running hstatus).1
          · intro h
            have hnone := h hb hsame
            exact leaseMatches_of_not_running hstatus (hworker.trans hnone)
              (hlease.trans (hrow.unowned hnone).2)
      · -- a job that was read owned was `RUNNING`: all three columns are written
        have hrunning : base.status = .running := by
          by_contra hnot
          exact hb (hbase.not_running hnot).1
        refine ⟨fun _ hnone => absurd hnone hb, fun _ => ?_⟩
        refine leaseMatches_of_not_running ?_ ?_ ?_
        · simp only [flush]
          rw [written_of_ne _ (by rw [hrunning]; exact hs)]
          exact hs
        · simp only [flush]
          rw [written_of_ne _ (by rw [hw]; exact fun h => hb h.symm)]
          exact hw
        · simp only [flush]
          rw [written_of_ne _ (by rw [hl]; exact fun h => (hbase.running hrunning).2 h.symm)]
          exact hl

/-! ## Runs -/

/-- The step is not the commit of a transaction that read the job unowned, changes its
status, and finds it acquired. -/
def StillUnowned (s : Sys) : Action → Prop
  | .api_commit i => ∀ tx, s.api i = some tx → FindsUnowned tx.base tx.new s.row
  | .go w _ => ∀ base tx, (s.workers w).phase = .writing base tx →
      FindsUnowned base (tx.body base) s.row
  | _ => True

/-- Every transaction in flight has read a row that satisfied the invariant. -/
structure ReadMatching (s : Sys) : Prop where
  api : ∀ i tx, s.api i = some tx → LeaseMatches tx.base
  worker : ∀ w base tx, (s.workers w).phase = .writing base tx → LeaseMatches base

section

variable {cfg : Config} {s t : Sys} {a : Action}

theorem ReadMatching.step (hrow : LeaseMatches s.row) (h : ReadMatching s)
    (hs : step cfg s a = some t) : ReadMatching t where
  api := by
    intro i tx hi
    rcases api_cases hs hi with hi | ⟨_, hbase, _⟩
    · exact h.api i tx hi
    · rw [hbase]
      exact hrow
  worker := by
    intro w base tx hw
    rcases writing_cases hs hw with hw | ⟨hbase, _⟩
    · exact h.worker w base tx hw
    · rw [hbase]
      exact hrow

/-- **One step.** Acquisitions and renewals keep the invariant, and a commit keeps it
exactly under its condition. -/
theorem leaseMatches_step_iff (hrow : LeaseMatches s.row) (h : ReadMatching s)
    (hs : step cfg s a = some t) : LeaseMatches t.row ↔ StillUnowned s a := by
  cases step_took hs with
  | api_commit i tx htx =>
      dsimp only
      rw [leaseMatches_flush_iff (h.api i tx htx) hrow
        ((ApiOp.apply_spec tx.accepted).2.leaseWrite (h.api i tx htx))]
      constructor
      · intro hfinds tx' htx'
        obtain rfl := Option.some.inj (htx.symm.trans htx')
        exact hfinds
      · exact fun hstill => hstill tx htx
  | go w input m hm =>
      rcases Sys.move_row hm with ⟨base, tx, hw, hmove⟩ | ⟨hw, hmove⟩
      · rw [hmove, leaseMatches_flush_iff (h.worker w base tx hw) hrow (tx.leaseWrite base)]
        constructor
        · intro hfinds base' tx' hw'
          rw [hw] at hw'
          cases hw'
          exact hfinds
        · exact fun hstill => hstill base tx hw
      · rw [hmove]
        exact ⟨fun _ base tx hw' => absurd hw' (hw base tx), fun _ => hrow⟩
  | acquire w hidle helig =>
      exact ⟨fun _ => trivial, fun _ => leaseMatches_of_running rfl (by simp [acquired_row])
        (by simp [acquired_row])⟩
  | renew w =>
      refine ⟨fun _ => trivial, fun _ => ?_⟩
      dsimp only
      rw [renewed_row]
      split
      · rename_i hw
        -- a row that has a worker is `RUNNING`, so the renewal finds a lease to replace
        have hrunning : s.row.status = .running := by
          by_contra hnot
          rw [(hrow.not_running hnot).1] at hw
          cases hw
        exact leaseMatches_of_running hrunning (hrow.running hrunning).1 (by simp)
      · exact hrow
  | _ => exact ⟨fun _ => trivial, fun _ => hrow⟩

/-- **When the lease goes with the status.** In a run from the job's creation the invariant
holds of every committed row exactly if no transaction that read the job while no worker
held it commits a change of its status after a worker has acquired it. -/
theorem lease_matches_status_iff {speed_factor : Rat} {world : World} {clock : Nat}
    {tr : List (Sys × Action)}
    (hrun : Run (step cfg) (Sys.initial speed_factor world clock) tr s) :
    ((∀ p ∈ tr, LeaseMatches p.1.row) ∧ LeaseMatches s.row) ↔ StepsMeet StillUnowned tr := by
  refine Run.exact (P := fun s => LeaseMatches s.row) (J := ReadMatching)
    (fun s a t hP hJ hs => leaseMatches_step_iff hP hJ hs)
    (fun s a t hP hJ hs _ => hJ.step hP hs) ?_ ?_ hrun
  · exact leaseMatches_of_not_running (by simp [Sys.initial, ReplayJob.created]) rfl rfl
  · exact ⟨fun i tx htx => by contradiction, fun w base tx hw => by contradiction⟩

/-- A job that is started, acquired, and paused by an API request. -/
theorem lease_matches_status_paused :
    ∃ tr s, Run (step short_config) (Sys.initial 1 empty_world 0) tr s ∧
      s.row.status = .paused ∧
      (((∀ p ∈ tr, LeaseMatches p.1.row) ∧ LeaseMatches s.row) ↔ StepsMeet StillUnowned tr) := by
  have hrun : ∃ tr s, Run (step short_config) (Sys.initial 1 empty_world 0) tr s ∧
      s.row.status = .paused :=
    exists_run_of_exec
      [.api_read 0 .start, .api_commit 0, .boot 0, .acquire 0, .api_read 0 .pause, .api_commit 0]
      (by decide)
  obtain ⟨tr, s, hrun, hs⟩ := hrun
  exact ⟨tr, s, hrun, hs, lease_matches_status_iff hrun⟩

/-- The columns do come apart: `cancel_job` reads the `QUEUED` job, a worker acquires it, and
the cancellation commits. The row is `CANCELLED` and still has the worker. -/
theorem cancelled_job_keeps_worker :
    ∃ tr s, Run (step short_config) (Sys.initial 1 empty_world 0) tr s ∧
      s.row.status = .cancelled ∧ s.row.worker_id = some 0 ∧ ¬ LeaseMatches s.row :=
  exists_run_of_exec
    [.api_read 0 .start, .api_commit 0, .api_read 0 .cancel, .boot 0, .acquire 0, .api_commit 0]
    (by decide)

end

end WalStream.Job

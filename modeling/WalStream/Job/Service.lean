/-
`job_service`: the API's operations on a job.

An operation changes the job it was given or refuses with a 400 response. It runs on the
object as read; the write is the transaction's, at its commit.
-/
import WalStream.Job.Row

set_option autoImplicit false

namespace WalStream.Job

/-- The 400 responses, with what their `detail` mentions. -/
inductive HTTPException
  /-- `Cannot transition from {current} to {target}` -/
  | cannot_transition (current target : JobStatus)
  /-- `Cannot update speed factor in {current} state` -/
  | cannot_update_speed_factor (current : JobStatus)
  /-- `Job is not in PENDING state (current: {current})` -/
  | not_pending (current : JobStatus)
  /-- `Job is not RUNNING (current: {current})` -/
  | not_running (current : JobStatus)
  /-- `Job is not PAUSED (current: {current})` -/
  | not_paused (current : JobStatus)
  /-- `Job is already in terminal state: {current}` -/
  | already_terminal (current : JobStatus)
deriving DecidableEq, Repr

/-- `_VALID_TRANSITIONS`; a status without an entry allows none. -/
def VALID_TRANSITIONS : JobStatus → List JobStatus
  | .pending => [.queued, .cancelled]
  | .queued => [.cancelled]
  | .running => [.paused, .cancelled]
  | .paused => [.queued, .cancelled]
  | _ => []

/-- `_transition_status`. -/
def transition_status (now : Nat) (target : JobStatus) (job : ReplayJob) :
    Except HTTPException ReplayJob :=
  if target ∉ VALID_TRANSITIONS job.status then
    .error (.cannot_transition job.status target)
  else
    let job := { job with status := target }
    -- the lease is only cleared on the way to these two
    let job :=
      if target = .paused ∨ target = .cancelled then
        { job with worker_id := none, lease_expires_at := none }
      else job
    .ok (if target = .cancelled then { job with completed_at := some now } else job)

/-- The speed part of `update_job`. -/
def set_speed_factor (speed_factor : Rat) (job : ReplayJob) : Except HTTPException ReplayJob :=
  if job.status = .running ∨ job.status = .paused ∨ job.status = .pending then
    .ok { job with speed_factor := speed_factor }
  else
    .error (.cannot_update_speed_factor job.status)

/-- `update_job`. -/
def update_job (now : Nat) (target_status : Option JobStatus) (speed_factor : Option Rat)
    (job : ReplayJob) : Except HTTPException ReplayJob := do
  -- the status first: a refused transition leaves the speed unchanged too
  let job ← match target_status with
    | some target => transition_status now target job
    | none => .ok job
  match speed_factor with
  | some speed_factor => set_speed_factor speed_factor job
  | none => .ok job

/-- `start_job`. -/
def start_job (job : ReplayJob) : Except HTTPException ReplayJob :=
  if job.status ≠ .pending then .error (.not_pending job.status)
  else .ok { job with status := .queued }

/-- `pause_job`. -/
def pause_job (job : ReplayJob) : Except HTTPException ReplayJob :=
  if job.status ≠ .running then .error (.not_running job.status)
  else .ok { job with status := .paused, worker_id := none, lease_expires_at := none }

/-- `resume_job`. -/
def resume_job (job : ReplayJob) : Except HTTPException ReplayJob :=
  if job.status ≠ .paused then .error (.not_paused job.status)
  else .ok { job with status := .queued }

/-- `cancel_job`. -/
def cancel_job (now : Nat) (job : ReplayJob) : Except HTTPException ReplayJob :=
  if job.status.is_terminal then .error (.already_terminal job.status)
  else .ok { job with
    status := .cancelled, worker_id := none, lease_expires_at := none, completed_at := some now }

/-- A request of the API. -/
inductive ApiOp
  | start
  | pause
  | resume
  | cancel
  | update (target_status : Option JobStatus) (speed_factor : Option Rat)
deriving DecidableEq

/-- What a request does to the job as read, at the time `now`. -/
def ApiOp.apply (now : Nat) : ApiOp → ReplayJob → Except HTTPException ReplayJob
  | .start, job => start_job job
  | .pause, job => pause_job job
  | .resume, job => resume_job job
  | .cancel, job => cancel_job now job
  | .update target_status speed_factor, job => update_job now target_status speed_factor job

/-! ## What an operation can change -/

/-- An accepted operation leaves everything but the speed, the status, the lease and
`completed_at` alone. -/
structure ApiChange (base new : ReplayJob) : Prop where
  events_total : new.events_total = base.events_total
  events_processed : new.events_processed = base.events_processed
  events_failed : new.events_failed = base.events_failed
  events_skipped_dedup : new.events_skipped_dedup = base.events_skipped_dedup
  replay_source : new.replay_source = base.replay_source
  error_message : new.error_message = base.error_message
  error_count : new.error_count = base.error_count
  checkpoint : new.checkpoint = base.checkpoint
  last_processed_id : new.last_processed_id = base.last_processed_id
  last_processed_time : new.last_processed_time = base.last_processed_time
  started_at : new.started_at = base.started_at

theorem ApiChange.refl (base : ReplayJob) : ApiChange base base := by
  constructor <;> rfl

/-- The status and the lease after an accepted operation: as they were, or a status other
than `RUNNING` without a lease, or `QUEUED` on a status that was `PENDING` or `PAUSED`. -/
inductive ApiStatus (base new : ReplayJob) : Prop
  | same (status : new.status = base.status) (worker : new.worker_id = base.worker_id)
      (lease : new.lease_expires_at = base.lease_expires_at)
  | released (status : new.status = .paused ∧ base.status = .running ∨
        new.status = .cancelled ∧ base.status.is_terminal = false)
      (worker : new.worker_id = none) (lease : new.lease_expires_at = none)
  | queued (status : new.status = .queued) (before : base.status = .pending ∨ base.status = .paused)
      (worker : new.worker_id = base.worker_id) (lease : new.lease_expires_at = base.lease_expires_at)

/-- The entries of `_VALID_TRANSITIONS`, by their target. -/
theorem valid_transition_iff {current target : JobStatus} :
    target ∈ VALID_TRANSITIONS current ↔
      (target = .queued ∧ (current = .pending ∨ current = .paused)) ∨
      (target = .paused ∧ current = .running) ∨
      (target = .cancelled ∧ current.is_terminal = false) := by
  cases current <;> simp [VALID_TRANSITIONS, JobStatus.is_terminal]

theorem transition_status_spec {now : Nat} {target : JobStatus} {base new : ReplayJob}
    (h : transition_status now target base = .ok new) :
    ApiChange base new ∧ ApiStatus base new := by
  unfold transition_status at h
  split at h
  · cases h
  · rename_i hvalid
    rw [not_not, valid_transition_iff] at hvalid
    -- by the target: to the queue, to a pause, to the end
    rcases hvalid with ⟨rfl, hb⟩ | ⟨rfl, hb⟩ | ⟨rfl, hb⟩
    · cases h
      exact ⟨by constructor <;> rfl, .queued rfl hb rfl rfl⟩
    · cases h
      exact ⟨by constructor <;> rfl, .released (Or.inl ⟨rfl, hb⟩) rfl rfl⟩
    · cases h
      exact ⟨by constructor <;> rfl, .released (Or.inr ⟨rfl, hb⟩) rfl rfl⟩

theorem set_speed_factor_eq {speed_factor : Rat} {base new : ReplayJob}
    (h : set_speed_factor speed_factor base = .ok new) :
    new = { base with speed_factor := speed_factor } := by
  unfold set_speed_factor at h
  split at h
  · cases h
    rfl
  · cases h

/-- Changing the speed changes neither what the operation left alone nor the status. -/
theorem ApiChange.set_speed {base new : ReplayJob} (h : ApiChange base new ∧ ApiStatus base new)
    (speed_factor : Rat) :
    ApiChange base { new with speed_factor := speed_factor } ∧
      ApiStatus base { new with speed_factor := speed_factor } := by
  obtain ⟨hchange, hstatus⟩ := h
  refine ⟨⟨hchange.events_total, hchange.events_processed, hchange.events_failed,
    hchange.events_skipped_dedup, hchange.replay_source, hchange.error_message,
    hchange.error_count, hchange.checkpoint, hchange.last_processed_id,
    hchange.last_processed_time, hchange.started_at⟩, ?_⟩
  cases hstatus with
  | same hs hw hl => exact .same hs hw hl
  | released hs hw hl => exact .released hs hw hl
  | queued hs hb hw hl => exact .queued hs hb hw hl

/-- An accepted `PATCH` makes the status transition, if there is one, and sets the speed. -/
theorem update_job_eq {now : Nat} {target_status : Option JobStatus}
    {speed_factor : Option Rat} {base new : ReplayJob}
    (h : update_job now target_status speed_factor base = .ok new) :
    ∃ (job : ReplayJob) (speed : Rat), new = { job with speed_factor := speed } ∧
      (target_status = none ∧ job = base ∨
        ∃ target, target_status = some target ∧ transition_status now target base = .ok job) := by
  have hspeed : ∀ {job : ReplayJob}, update_job now none speed_factor job = .ok new →
      ∃ speed : Rat, new = { job with speed_factor := speed } := by
    intro job hset
    cases speed_factor with
    | some speed_factor => exact ⟨speed_factor, set_speed_factor_eq hset⟩
    | none =>
        simp only [update_job, bind, Except.bind, Except.ok.injEq] at hset
        exact ⟨job.speed_factor, hset.symm⟩
  cases target_status with
  | none =>
      obtain ⟨speed, hnew⟩ := hspeed h
      exact ⟨base, speed, hnew, Or.inl ⟨rfl, rfl⟩⟩
  | some target =>
      simp only [update_job, bind, Except.bind] at h
      cases hjob : transition_status now target base with
      | error e =>
          rw [hjob] at h
          cases h
      | ok job =>
          rw [hjob] at h
          obtain ⟨speed, hnew⟩ := hspeed h
          exact ⟨job, speed, hnew, Or.inr ⟨target, rfl, hjob⟩⟩

theorem update_job_spec {now : Nat} {target_status : Option JobStatus}
    {speed_factor : Option Rat} {base new : ReplayJob}
    (h : update_job now target_status speed_factor base = .ok new) :
    ApiChange base new ∧ ApiStatus base new := by
  obtain ⟨job, speed, rfl, ⟨-, rfl⟩ | ⟨target, -, hjob⟩⟩ := update_job_eq h
  · exact ApiChange.set_speed ⟨ApiChange.refl _, .same rfl rfl rfl⟩ speed
  · exact ApiChange.set_speed (transition_status_spec hjob) speed

/-- **What an accepted request changes.** -/
theorem ApiOp.apply_spec {op : ApiOp} {now : Nat} {base new : ReplayJob}
    (h : op.apply now base = .ok new) : ApiChange base new ∧ ApiStatus base new := by
  cases op with
  | start =>
      simp only [ApiOp.apply, start_job] at h
      split at h
      · cases h
      · rename_i hs
        cases h
        exact ⟨by constructor <;> rfl, .queued rfl (Or.inl (not_not.mp hs)) rfl rfl⟩
  | pause =>
      simp only [ApiOp.apply, pause_job] at h
      split at h
      · cases h
      · rename_i hs
        cases h
        exact ⟨by constructor <;> rfl, .released (Or.inl ⟨rfl, not_not.mp hs⟩) rfl rfl⟩
  | resume =>
      simp only [ApiOp.apply, resume_job] at h
      split at h
      · cases h
      · rename_i hs
        cases h
        exact ⟨by constructor <;> rfl, .queued rfl (Or.inr (not_not.mp hs)) rfl rfl⟩
  | cancel =>
      simp only [ApiOp.apply, cancel_job] at h
      split at h
      · cases h
      · rename_i hs
        cases h
        exact ⟨by constructor <;> rfl, .released (Or.inr ⟨rfl, by simpa using hs⟩) rfl rfl⟩
  | update target_status speed_factor => exact update_job_spec h

end WalStream.Job

/-
The `replay_jobs` row, and how a transaction writes it.

A transaction of the ORM reads the row, changes attributes of the object it got, and at
its commit writes the columns whose value differs from the one read, each to the new
value. Nothing is locked in between: another transaction may have committed meanwhile, and
the columns this one does not write keep what that one left there. `flush base new row` is
that write: `base` is the object as read, `new` as changed, and `row` the committed row.

The columns no modelled function reads or writes (the configuration of the target, the
audit columns, `created_at` and `updated_at`) are left out. Workers are numbered, as
`WorkerManager` numbers them. Times are in milliseconds.
-/
import WalStream.Source.Event

set_option autoImplicit false

namespace WalStream.Job

open Lib

/-! ## The row -/

/-- `JobStatus`. -/
inductive JobStatus
  | pending
  | queued
  | running
  | paused
  | completed
  | failed
  | cancelled
deriving DecidableEq, Repr

/-- `ReplayJob`. -/
structure ReplayJob where
  speed_factor : Rat
  status : JobStatus
  events_total : Nat
  events_processed : Nat
  events_failed : Nat
  events_skipped_dedup : Nat
  replay_source : Option SourceName
  error_message : Option String
  error_count : Nat
  /-- The offsets replayed so far, per Kafka partition. -/
  checkpoint : Option (Dict Nat Nat)
  last_processed_id : LastProcessedId
  last_processed_time : Option Nat
  worker_id : Option Nat
  lease_expires_at : Option Nat
  started_at : Option Nat
  completed_at : Option Nat
deriving DecidableEq

/-- `is_terminal`. -/
def JobStatus.is_terminal : JobStatus → Bool
  | .completed => true
  | .failed => true
  | .cancelled => true
  | _ => false

/-- A job as `create_job` leaves it. -/
def ReplayJob.created (speed_factor : Rat) : ReplayJob :=
  { speed_factor := speed_factor,
    status := .pending,
    events_total := 0,
    events_processed := 0,
    events_failed := 0,
    events_skipped_dedup := 0,
    replay_source := none,
    error_message := none,
    error_count := 0,
    checkpoint := none,
    last_processed_id := .null,
    last_processed_time := none,
    worker_id := none,
    lease_expires_at := none,
    started_at := none,
    completed_at := none }

/-! ## Writing the changed columns -/

/-- What a column holds after a commit that read `base` and leaves `new` in the object. -/
def written {α : Type} [DecidableEq α] (base new current : α) : α :=
  -- SQLAlchemy writes an attribute only if it differs from what was loaded
  if new = base then current else new

@[simp] theorem written_self {α : Type} [DecidableEq α] (base current : α) :
    written base base current = current := if_pos rfl

theorem written_of_ne {α : Type} [DecidableEq α] {base new : α} (current : α) (h : new ≠ base) :
    written base new current = new := if_neg h

theorem written_cases {α : Type} [DecidableEq α] (base new current : α) :
    written base new current = new ∨ written base new current = current := by
  by_cases h : new = base
  · exact Or.inr (if_pos h)
  · exact Or.inl (if_neg h)

/-- A column nobody else wrote since it was read holds the new value. -/
@[simp] theorem written_current {α : Type} [DecidableEq α] (base new : α) :
    written base new base = new := by
  by_cases h : new = base
  · rw [h, written_self]
  · exact written_of_ne base h

/-- The committed row after a transaction that read `base` and changed it to `new`. -/
def flush (base new row : ReplayJob) : ReplayJob :=
  { speed_factor := written base.speed_factor new.speed_factor row.speed_factor,
    status := written base.status new.status row.status,
    events_total := written base.events_total new.events_total row.events_total,
    events_processed := written base.events_processed new.events_processed row.events_processed,
    events_failed := written base.events_failed new.events_failed row.events_failed,
    events_skipped_dedup :=
      written base.events_skipped_dedup new.events_skipped_dedup row.events_skipped_dedup,
    replay_source := written base.replay_source new.replay_source row.replay_source,
    error_message := written base.error_message new.error_message row.error_message,
    error_count := written base.error_count new.error_count row.error_count,
    checkpoint := written base.checkpoint new.checkpoint row.checkpoint,
    last_processed_id := written base.last_processed_id new.last_processed_id row.last_processed_id,
    last_processed_time :=
      written base.last_processed_time new.last_processed_time row.last_processed_time,
    worker_id := written base.worker_id new.worker_id row.worker_id,
    lease_expires_at := written base.lease_expires_at new.lease_expires_at row.lease_expires_at,
    started_at := written base.started_at new.started_at row.started_at,
    completed_at := written base.completed_at new.completed_at row.completed_at }

/-- A transaction that changed nothing writes nothing. -/
theorem flush_self (base row : ReplayJob) : flush base base row = row := by
  simp [flush]

/-- A transaction nobody interfered with leaves the object it changed. -/
theorem flush_current (base new : ReplayJob) : flush base new base = new := by
  simp [flush]

end WalStream.Job

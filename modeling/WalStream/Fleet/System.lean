/-
Any number of jobs and workers, seen from the leases.

A `JobWorker` is two loops over one `current_job_id`. The main loop acquires a job and
executes it; every database call on the way may raise, before or after it took effect, and
what `_acquire_job` or `_fail_job` raises is logged by the loop of `start`, which goes on to
the next job. The renewal loop extends the lease of the job that `current_job_id` names.

The modules about one job follow the events through the execution. Here an execution is its
transactions: which events it gets, and what the replayer answers, is left open, so that any
transaction may come next where the code has one.
-/
import WalStream.Job.System

set_option autoImplicit false

namespace WalStream.Fleet

open Lib Job

/-! ## Workers

A worker is given by the call its main loop is suspended at. What the loop holds in its local
variables is kept as far as a later transaction writes it: which event is in hand and how it is
answered never reaches a lease, so any transaction that the code has at this place may come
next. -/

/-- `ReplayJob.id`. A fleet has any number of jobs, and a worker knows the one it is at by its
id alone. -/
abbrev JobId := Nat

/-- Where the main loop is. The phases are the calls at which it can be suspended; what the code
has in its variables there is kept only as far as a later transaction writes it. -/
inductive Main
  /-- In the loop of `start`. -/
  | idle
  /-- In `_acquire_job`, the `UPDATE` is committed and the job is read again. -/
  | refetching (j : JobId)
  /-- In `_acquire_job`, `current_job_id` is set and the session is left. -/
  | acquired (j : JobId)
  /-- In `_execute_job`, between two transactions. -/
  | executing (j : JobId)
  /-- The status was `PAUSED`; `_checkpoint_job` is called within the session of the check. -/
  | pausing (j : JobId)
  /-- `_execute_job` returns out of the session of the check. -/
  | leaving (j : JobId)
  /-- A transaction has read `base` and is to commit; `within` says that it is inside the
  session of the check. -/
  | writing (j : JobId) (within : Bool) (base : ReplayJob) (tx : WorkerTx)
  /-- In the `except` clause, before `_fail_job`. -/
  | failing (j : JobId)

/-- The job for which the worker is inside `_acquire_job` or `_execute_job`. -/
def Main.job : Main → Option JobId
  | .idle => none
  | .refetching j => some j
  | .acquired j => some j
  | .executing j => some j
  | .pausing j => some j
  | .leaving j => some j
  | .writing j _ _ _ => some j
  | .failing j => some j

/-- Where an exception leads. -/
def Main.raised : Main → Option Main
  | .idle => none
  -- out of `_acquire_job`
  | .refetching _ => some .idle
  | .acquired _ => some .idle
  -- to the `except` clause of `_execute_job`
  | .executing j => some (.failing j)
  | .pausing j => some (.failing j)
  | .leaving j => some (.failing j)
  | .writing j _ _ tx =>
      match tx with
      -- out of `_fail_job`, and so out of `_execute_job`
      | .fail _ => some .idle
      | _ => some (.failing j)
  | .failing _ => some .idle

/-- The job that an exception takes the worker away from. An exception that `_execute_job`
catches leads to `_fail_job` for the same job, so only one raised outside of it, or by
`_fail_job`, does so. -/
def Main.left_by_raise (main : Main) : Option JobId :=
  match main.raised with
  | some .idle => main.job
  | _ => none

/-- The job that a `return` out of the session of the check takes it away from. Leaving the
session ends its transaction, which is a call to the database, so the worker can be suspended
there. -/
def Main.left_by_return : Main → Option JobId
  | .leaving j => some j
  | _ => none

/-- A `JobWorker`. -/
structure Process where
  running : Bool
  current_job_id : Option JobId
  /-- The call of `_renew_lease` that is under way, with the time it has read. -/
  renewal : Option (JobId × Nat)
  main : Main

/-- A process that is not there, and one that has just been started. -/
def Process.gone : Process :=
  { running := false, current_job_id := none, renewal := none, main := .idle }

def Process.started : Process := { Process.gone with running := true }

/-- What the main loop does next, where the code has a choice that depends on something this
model leaves open: an event, an answer, or a status. -/
inductive Next
  /-- A transaction reads the job. -/
  | read (tx : WorkerTx)
  /-- The status is checked. -/
  | check
  /-- The only thing there is. -/
  | proceed

/-- The transactions of the `async for` and around it. The checkpoint is the one of a worker
that is stopped. -/
def in_loop (running : Bool) : WorkerTx → Bool
  | .setup _ _ => true
  | .progress _ _ _ _ => true
  | .event_failed _ _ _ => true
  | .complete _ _ => true
  | .checkpoint _ _ => !running
  | .fail _ => false

/-- The next piece of the main loop that writes nothing. A job that is deleted cannot be
read: then the only way on is an exception. -/
def Process.go (p : Process) (rows : JobId → Option ReplayJob) (next : Next) : Option Process :=
  match p.main, next with
  | .refetching j, .proceed =>
      (rows j).map fun _ => { p with current_job_id := some j, main := .acquired j }
  | .acquired j, .proceed => some { p with main := .executing j }
  | .executing j, .read tx =>
      if in_loop p.running tx then
        (rows j).map fun row => { p with main := .writing j false row tx }
      else none
  | .executing j, .check =>
      (rows j).map fun row =>
        if row.status = .paused then { p with main := .pausing j }
        else if row.status = .cancelled then
          { p with current_job_id := none, main := .leaving j }
        else p
  | .pausing j, .read (.checkpoint last_id now) =>
      (rows j).map fun row => { p with main := .writing j true row (.checkpoint last_id now) }
  | .failing j, .read (.fail error) =>
      (rows j).map fun row => { p with main := .writing j false row (.fail error) }
  | .leaving _, .proceed => some { p with main := .idle }
  | _, _ => none

/-- The process after the commit of `tx`. -/
def Process.after_commit (p : Process) (j : JobId) (within : Bool) : WorkerTx → Process
  | .setup _ _ => { p with main := .executing j }
  | .progress _ _ _ _ => { p with main := .executing j }
  | .event_failed _ _ _ => { p with main := .failing j }
  | .checkpoint _ _ =>
      { p with current_job_id := none, main := if within then .leaving j else .idle }
  | .complete _ _ => { p with current_job_id := none, main := .idle }
  | .fail _ => { p with current_job_id := none, main := .idle }

/-- **What the next piece of the main loop can be.** -/
inductive Process.Went (p : Process) (rows : JobId → Option ReplayJob) (next : Next) :
    Process → Prop
  | refetched (j : JobId) (hmain : p.main = .refetching j) :
      Went p rows next { p with current_job_id := some j, main := .acquired j }
  | entered (j : JobId) (hmain : p.main = .acquired j) :
      Went p rows next { p with main := .executing j }
  | read (j : JobId) (within : Bool) (row : ReplayJob) (tx : WorkerTx)
      (hjob : p.main.job = some j) (hrow : rows j = some row) :
      Went p rows next { p with main := .writing j within row tx }
  | checked : Went p rows next p
  | saw_paused (j : JobId) (hmain : p.main = .executing j) :
      Went p rows next { p with main := .pausing j }
  | saw_cancelled (j : JobId) (hmain : p.main = .executing j) :
      Went p rows next { p with current_job_id := none, main := .leaving j }
  | returned (j : JobId) (hmain : p.main = .leaving j) (hnext : next = .proceed) :
      Went p rows next { p with main := .idle }

/-- **The inversion of `go`.** As for a single job, the code is taken apart once. -/
theorem Process.went {p p' : Process} {rows : JobId → Option ReplayJob} {next : Next}
    (h : p.go rows next = some p') : p.Went rows next p' := by
  unfold Process.go at h
  split at h
  · rename_i j hmain
    obtain ⟨row, -, rfl⟩ := Option.map_eq_some_iff.mp h
    exact .refetched j hmain
  · rename_i j hmain
    cases h
    exact .entered j hmain
  · rename_i j tx hmain
    split at h
    · obtain ⟨row, hrow, rfl⟩ := Option.map_eq_some_iff.mp h
      exact .read j false row tx (by rw [hmain]; rfl) hrow
    · cases h
  · rename_i j hmain
    obtain ⟨row, -, rfl⟩ := Option.map_eq_some_iff.mp h
    split
    · exact .saw_paused j hmain
    · split
      · exact .saw_cancelled j hmain
      · exact .checked
  · rename_i j last_id now hmain
    obtain ⟨row, hrow, rfl⟩ := Option.map_eq_some_iff.mp h
    exact .read j true row _ (by rw [hmain]; rfl) hrow
  · rename_i j error hmain
    obtain ⟨row, hrow, rfl⟩ := Option.map_eq_some_iff.mp h
    exact .read j false row _ (by rw [hmain]; rfl) hrow
  · rename_i j hmain
    cases h
    exact .returned j hmain rfl
  · cases h

/-- An exception leads to the loop of `start`, or to `_fail_job` for the same job. -/
theorem Main.raised_cases {main main' : Main} (h : main.raised = some main') :
    main' = .idle ∨ ∃ j, main.job = some j ∧ main' = .failing j := by
  unfold Main.raised at h
  split at h
  · cases h
  · cases h
    exact Or.inl rfl
  · cases h
    exact Or.inl rfl
  · cases h
    exact Or.inr ⟨_, rfl, rfl⟩
  · cases h
    exact Or.inr ⟨_, rfl, rfl⟩
  · cases h
    exact Or.inr ⟨_, rfl, rfl⟩
  · split at h
    · cases h
      exact Or.inl rfl
    · cases h
      exact Or.inr ⟨_, rfl, rfl⟩
  · cases h
    exact Or.inl rfl

/-! ## The system

A request and a worker's transaction both take two steps, one that reads the row and one that
commits, and whatever happens between the two is lost where the columns are the same. The
acquisition is one `UPDATE` and so one step. `lost` gives a step whose effect is there although
its caller gets an exception, which is how a job comes to be owned by a worker that does not
know of it. -/

/-- An API request that has read its job and is to commit. -/
inductive Request
  | change (tx : ApiTx)
  /-- `delete_job`, on a job that was read as terminal. -/
  | delete

/-- The rows of the jobs, the processes, and the requests in flight. Events and targets are left
out, and with them everything that has no influence on a lease. -/
structure Sys where
  rows : JobId → Option ReplayJob
  procs : Nat → Process
  /-- The requests in flight, each about one job. -/
  api : Nat → Option (JobId × Request)
  clock : Nat

inductive Action
  | tick (ms : Nat)
  | create (j : JobId) (speed_factor : Rat)
  /-- A request reads its job; it is refused, or will commit or be rolled back. -/
  | api_read (i : Nat) (j : JobId) (op : ApiOp)
  | api_delete (i : Nat) (j : JobId)
  | api_commit (i : Nat)
  | api_abort (i : Nat)
  /-- The `UPDATE` of `_acquire_job` is committed; `lost` says that the call raises all the
  same. -/
  | acquire (w : Nat) (j : JobId) (lost : Bool)
  /-- The next piece of the main loop that writes nothing. -/
  | go (w : Nat) (next : Next)
  /-- A transaction of the main loop commits; `lost` as above. -/
  | commit (w : Nat) (lost : Bool)
  /-- The next piece raises, and nothing is written. -/
  | raise (w : Nat)
  /-- The renewal loop wakes up and calls `_renew_lease`; its `UPDATE` runs, or fails. -/
  | renew_start (w : Nat)
  | renew (w : Nat)
  | renew_fail (w : Nat)
  | stop (w : Nat)
  | crash (w : Nat)
  | boot (w : Nat)

def Sys.initial (clock : Nat) : Sys :=
  { rows := fun _ => none, procs := fun _ => .gone, api := fun _ => none, clock := clock }

def Sys.set_proc (s : Sys) (w : Nat) (p : Process) : Sys :=
  { s with procs := Function.update s.procs w p }

def Sys.set_row (s : Sys) (j : JobId) (row : Option ReplayJob) : Sys :=
  { s with rows := Function.update s.rows j row }

def step (cfg : Config) (s : Sys) : Action → Option Sys
  | .tick ms => some { s with clock := s.clock + ms }
  | .create j speed_factor =>
      match s.rows j with
      | none => some (s.set_row j (some (.created speed_factor)))
      | some _ => none
  | .api_read i j op =>
      match s.api i, s.rows j with
      | none, some row =>
          match h : op.apply s.clock row with
          | .ok new =>
              some { s with
                api := Function.update s.api i (some (j, .change ⟨row, op, s.clock, new, h⟩)) }
          | .error _ => some s
      | _, _ => none
  | .api_delete i j =>
      match s.api i, s.rows j with
      | none, some row =>
          if row.status.is_terminal then
            some { s with api := Function.update s.api i (some (j, .delete)) }
          else some s
      | _, _ => none
  | .api_commit i =>
      match s.api i with
      | none => none
      | some (j, request) =>
          match s.rows j with
          -- the job was deleted meanwhile
          | none => none
          | some row =>
              let row := match request with
                | .change tx => some (flush tx.base tx.new row)
                | .delete => none
              some { s.set_row j row with api := Function.update s.api i none }
  | .api_abort i => some { s with api := Function.update s.api i none }
  | .acquire w j lost =>
      match (s.procs w).main, s.rows j with
      | .idle, some row =>
          if (s.procs w).running && eligible s.clock row then
            let s' := s.set_row j (some (acquired_row cfg s.clock w row))
            some (if lost then s' else s'.set_proc w { s.procs w with main := .refetching j })
          else none
      | _, _ => none
  | .go w next => ((s.procs w).go s.rows next).map (s.set_proc w)
  | .commit w lost =>
      match (s.procs w).main with
      | .writing j within base tx =>
          match s.rows j, (s.procs w).main.raised with
          | some row, some raised =>
              let s' := s.set_row j (some (flush base (tx.body base) row))
              some (s'.set_proc w
                (if lost then { s.procs w with main := raised }
                  else (s.procs w).after_commit j within tx))
          | _, _ => none
      | _ => none
  | .raise w =>
      (s.procs w).main.raised.map fun main => s.set_proc w { s.procs w with main := main }
  | .renew_start w =>
      match (s.procs w).current_job_id, (s.procs w).renewal with
      | some j, none => some (s.set_proc w { s.procs w with renewal := some (j, s.clock) })
      | _, _ => none
  | .renew w =>
      match (s.procs w).renewal with
      | some (j, now) =>
          some ((s.set_row j ((s.rows j).map (renewed_row cfg now w))).set_proc w
            { s.procs w with renewal := none })
      | none => none
  | .renew_fail w => some (s.set_proc w { s.procs w with renewal := none })
  | .stop w => some (s.set_proc w { s.procs w with running := false })
  | .crash w => some (s.set_proc w .gone)
  | .boot w =>
      match (s.procs w).main with
      | .idle => if (s.procs w).running then none else some (s.set_proc w .started)
      | _ => none

/-! ## What a step can do

Three inversions, of the whole state, of one row and of one worker. The results on leases are
proved by cases on the last two and never look at `step` itself. -/

/-- `Took cfg s a t`: the step `a` out of `s`, with what its guard says, and the state after
it. -/
inductive Took (cfg : Config) (s : Sys) : Action → Sys → Prop
  | tick (ms : Nat) : Took cfg s (.tick ms) { s with clock := s.clock + ms }
  | create (j : JobId) (speed_factor : Rat) (hrow : s.rows j = none) :
      Took cfg s (.create j speed_factor) (s.set_row j (some (.created speed_factor)))
  | read_refused (i : Nat) (j : JobId) (op : ApiOp) : Took cfg s (.api_read i j op) s
  | delete_refused (i : Nat) (j : JobId) : Took cfg s (.api_delete i j) s
  | api_read (i : Nat) (j : JobId) (op : ApiOp) (row : ReplayJob) (tx : ApiTx)
      (hrow : s.rows j = some row) (hbase : tx.base = row) :
      Took cfg s (.api_read i j op)
        { s with api := Function.update s.api i (some (j, .change tx)) }
  | api_delete (i : Nat) (j : JobId) :
      Took cfg s (.api_delete i j) { s with api := Function.update s.api i (some (j, .delete)) }
  | api_changed (i : Nat) (j : JobId) (tx : ApiTx) (row : ReplayJob)
      (htx : s.api i = some (j, .change tx)) (hrow : s.rows j = some row) :
      Took cfg s (.api_commit i)
        { s.set_row j (some (flush tx.base tx.new row)) with api := Function.update s.api i none }
  | api_deleted (i : Nat) (j : JobId) (row : ReplayJob) (htx : s.api i = some (j, .delete))
      (hrow : s.rows j = some row) :
      Took cfg s (.api_commit i)
        { s.set_row j none with api := Function.update s.api i none }
  | api_abort (i : Nat) : Took cfg s (.api_abort i) { s with api := Function.update s.api i none }
  | acquire (w : Nat) (j : JobId) (row : ReplayJob) (hidle : (s.procs w).main = .idle)
      (hrow : s.rows j = some row) :
      Took cfg s (.acquire w j false)
        ((s.set_row j (some (acquired_row cfg s.clock w row))).set_proc w
          { s.procs w with main := .refetching j })
  | acquire_lost (w : Nat) (j : JobId) (row : ReplayJob) (hidle : (s.procs w).main = .idle)
      (hrow : s.rows j = some row) :
      Took cfg s (.acquire w j true) (s.set_row j (some (acquired_row cfg s.clock w row)))
  | go (w : Nat) (next : Next) (p : Process) (hp : (s.procs w).go s.rows next = some p) :
      Took cfg s (.go w next) (s.set_proc w p)
  | commit (w : Nat) (j : JobId) (within : Bool) (base row : ReplayJob) (tx : WorkerTx)
      (hmain : (s.procs w).main = .writing j within base tx) (hrow : s.rows j = some row) :
      Took cfg s (.commit w false)
        ((s.set_row j (some (flush base (tx.body base) row))).set_proc w
          ((s.procs w).after_commit j within tx))
  | commit_lost (w : Nat) (j : JobId) (within : Bool) (base row : ReplayJob) (tx : WorkerTx)
      (main : Main) (hmain : (s.procs w).main = .writing j within base tx)
      (hrow : s.rows j = some row) (hraised : (s.procs w).main.raised = some main) :
      Took cfg s (.commit w true)
        ((s.set_row j (some (flush base (tx.body base) row))).set_proc w
          { s.procs w with main := main })
  | raise (w : Nat) (main : Main) (hraised : (s.procs w).main.raised = some main) :
      Took cfg s (.raise w) (s.set_proc w { s.procs w with main := main })
  | renew_start (w : Nat) (j : JobId) (hj : (s.procs w).current_job_id = some j) :
      Took cfg s (.renew_start w)
        (s.set_proc w { s.procs w with renewal := some (j, s.clock) })
  | renew (w : Nat) (j : JobId) (now : Nat) (hj : (s.procs w).renewal = some (j, now)) :
      Took cfg s (.renew w)
        ((s.set_row j ((s.rows j).map (renewed_row cfg now w))).set_proc w
          { s.procs w with renewal := none })
  | renew_fail (w : Nat) :
      Took cfg s (.renew_fail w) (s.set_proc w { s.procs w with renewal := none })
  | stop (w : Nat) : Took cfg s (.stop w) (s.set_proc w { s.procs w with running := false })
  | crash (w : Nat) : Took cfg s (.crash w) (s.set_proc w .gone)
  | boot (w : Nat) (hidle : (s.procs w).main = .idle) :
      Took cfg s (.boot w) (s.set_proc w .started)

section

variable {cfg : Config} {s t : Sys} {a : Action}

/-- **The inversion of `step`.** -/
theorem step_took (h : step cfg s a = some t) : Took cfg s a t := by
  cases a with
  | tick ms => cases h; exact .tick ms
  | create j speed_factor =>
      simp only [step] at h
      split at h
      · rename_i hrow; cases h; exact .create j speed_factor hrow
      · cases h
  | api_read i j op =>
      simp only [step] at h
      split at h
      · rename_i row _ hrow
        split at h
        · cases h; exact .api_read i j op row _ hrow rfl
        · cases h; exact .read_refused i j op
      · cases h
  | api_delete i j =>
      simp only [step] at h
      split at h
      · split at h
        · cases h; exact .api_delete i j
        · cases h; exact .delete_refused i j
      · cases h
  | api_commit i =>
      simp only [step] at h
      split at h
      · cases h
      · rename_i j request htx
        split at h
        · cases h
        · rename_i row hrow
          cases h
          cases request with
          | change tx => exact .api_changed i j tx row htx hrow
          | delete => exact .api_deleted i j row htx hrow
  | api_abort i => cases h; exact .api_abort i
  | acquire w j lost =>
      simp only [step] at h
      split at h
      · rename_i row hidle hrow
        split at h
        · cases h
          cases lost with
          | false => exact .acquire w j row hidle hrow
          | true => exact .acquire_lost w j row hidle hrow
        · cases h
      · cases h
  | go w next =>
      simp only [step, Option.map_eq_some_iff] at h
      obtain ⟨p, hp, rfl⟩ := h
      exact .go w next p hp
  | commit w lost =>
      simp only [step] at h
      split at h
      · rename_i j within base tx hmain
        split at h
        · rename_i row main hrow hraised
          cases h
          cases lost with
          | false => exact .commit w j within base row tx hmain hrow
          | true => exact .commit_lost w j within base row tx main hmain hrow hraised
        · cases h
      · cases h
  | raise w =>
      simp only [step, Option.map_eq_some_iff] at h
      obtain ⟨main, hraised, rfl⟩ := h
      exact .raise w main hraised
  | renew_start w =>
      simp only [step] at h
      split at h
      · rename_i j hj _; cases h; exact .renew_start w j hj
      · cases h
  | renew w =>
      simp only [step] at h
      split at h
      · rename_i j now hj; cases h; exact .renew w j now hj
      · cases h
  | renew_fail w => cases h; exact .renew_fail w
  | stop w => cases h; exact .stop w
  | crash w => cases h; exact .crash w
  | boot w =>
      simp only [step] at h
      split at h
      · rename_i hidle
        split at h
        · cases h
        · cases h; exact .boot w hidle
      · cases h

/-- **What a step can leave in the row of a job.** -/
inductive Wrote (cfg : Config) (s : Sys) (a : Action) (j : JobId) : Option ReplayJob → Prop
  | kept : Wrote cfg s a j (s.rows j)
  | created (speed_factor : Rat) (hrow : s.rows j = none) :
      Wrote cfg s a j (some (.created speed_factor))
  | changed (i : Nat) (tx : ApiTx) (row : ReplayJob) (ha : a = .api_commit i)
      (htx : s.api i = some (j, .change tx)) (hrow : s.rows j = some row) :
      Wrote cfg s a j (some (flush tx.base tx.new row))
  | deleted (i : Nat) (ha : a = .api_commit i) (htx : s.api i = some (j, .delete)) :
      Wrote cfg s a j none
  | acquired (w : Nat) (lost : Bool) (row : ReplayJob) (ha : a = .acquire w j lost)
      (hidle : (s.procs w).main = .idle) (hrow : s.rows j = some row) :
      Wrote cfg s a j (some (acquired_row cfg s.clock w row))
  | committed (w : Nat) (lost within : Bool) (base row : ReplayJob) (tx : WorkerTx)
      (ha : a = .commit w lost) (hmain : (s.procs w).main = .writing j within base tx)
      (hrow : s.rows j = some row) :
      Wrote cfg s a j (some (flush base (tx.body base) row))
  | renewed (w now : Nat) (row : ReplayJob) (ha : a = .renew w)
      (hj : (s.procs w).renewal = some (j, now)) (hrow : s.rows j = some row)
      (howner : row.worker_id = some w) :
      Wrote cfg s a j
        (some { row with lease_expires_at := some (now + cfg.job_lease_duration) })

/-- Every result on rows is by cases on this. A row is written by a request, an acquisition, a
renewal or a transaction of a worker, and by nothing else; each case says what the columns of
the lease become. -/
theorem wrote (h : step cfg s a = some t) (j : JobId) : Wrote cfg s a j (t.rows j) := by
  -- a step writes the row of one job
  have hself : ∀ {j' : JobId} {row : Option ReplayJob}, (j = j' → Wrote cfg s a j row) →
      Wrote cfg s a j (Function.update s.rows j' row j) := by
    intro j' row hrow
    by_cases hj : j = j'
    · rw [hj, Function.update_self, ← hj]
      exact hrow hj
    · rw [Function.update_of_ne hj]
      exact .kept
  cases step_took h with
  | create j' speed_factor hrow =>
      refine hself ?_
      rintro rfl
      exact .created speed_factor hrow
  | api_changed i j' tx row htx hrow =>
      refine hself ?_
      rintro rfl
      exact .changed i tx row rfl htx hrow
  | api_deleted i j' row htx hrow =>
      refine hself ?_
      rintro rfl
      exact .deleted i rfl htx
  | acquire w j' row hidle hrow =>
      refine hself ?_
      rintro rfl
      exact .acquired w false row rfl hidle hrow
  | acquire_lost w j' row hidle hrow =>
      refine hself ?_
      rintro rfl
      exact .acquired w true row rfl hidle hrow
  | commit w j' within base row tx hmain hrow =>
      refine hself ?_
      rintro rfl
      exact .committed w false within base row tx rfl hmain hrow
  | commit_lost w j' within base row tx main hmain hrow hraised =>
      refine hself ?_
      rintro rfl
      exact .committed w true within base row tx rfl hmain hrow
  | renew w j' now hj' =>
      refine hself ?_
      rintro rfl
      cases hrow : s.rows j with
      | none =>
          rw [Option.map_none, ← hrow]
          exact .kept
      | some row =>
          rw [Option.map_some]
          by_cases howner : row.worker_id = some w
          · rw [renewed_row, if_pos howner]
            exact .renewed w now row rfl hj' hrow howner
          · rw [renewed_row, if_neg howner, ← hrow]
            exact .kept
  | _ => exact .kept

/-- **What a step can make of a worker.** -/
inductive Moved (s : Sys) (a : Action) (w : Nat) : Process → Prop
  | kept : Moved s a w (s.procs w)
  /-- Its process died, or was started. -/
  | restarted (p : Process) (hjob : p.current_job_id = none) (hrenewal : p.renewal = none)
      (hidle : p.main = .idle) : Moved s a w p
  | acquired (j : JobId) (ha : a = .acquire w j false) (hidle : (s.procs w).main = .idle) :
      Moved s a w { s.procs w with main := .refetching j }
  | went (next : Next) (p : Process) (ha : a = .go w next)
      (hp : (s.procs w).go s.rows next = some p) : Moved s a w p
  | committed (j : JobId) (within : Bool) (base row : ReplayJob) (tx : WorkerTx)
      (ha : a = .commit w false) (hmain : (s.procs w).main = .writing j within base tx)
      (hrow : s.rows j = some row) : Moved s a w ((s.procs w).after_commit j within tx)
  | commit_lost (j : JobId) (within : Bool) (base row : ReplayJob) (tx : WorkerTx) (main : Main)
      (ha : a = .commit w true) (hmain : (s.procs w).main = .writing j within base tx)
      (hrow : s.rows j = some row) (hraised : (s.procs w).main.raised = some main) :
      Moved s a w { s.procs w with main := main }
  | raised (main : Main) (ha : a = .raise w) (hraised : (s.procs w).main.raised = some main) :
      Moved s a w { s.procs w with main := main }
  | renewing (j : JobId) (hj : (s.procs w).current_job_id = some j) :
      Moved s a w { s.procs w with renewal := some (j, s.clock) }
  | renewed : Moved s a w { s.procs w with renewal := none }
  | stopped : Moved s a w { s.procs w with running := false }

/-- The same for a process: it takes a step of its own, or somebody starts or stops it. -/
theorem moved (h : step cfg s a = some t) (w : Nat) : Moved s a w (t.procs w) := by
  -- a step moves one worker
  have hself : ∀ {v : Nat} {p : Process}, (w = v → Moved s a w p) →
      Moved s a w (Function.update s.procs v p w) := by
    intro v p hp
    by_cases hv : w = v
    · rw [hv, Function.update_self, ← hv]
      exact hp hv
    · rw [Function.update_of_ne hv]
      exact .kept
  cases step_took h with
  | acquire v j row hidle hrow =>
      refine hself ?_
      rintro rfl
      exact .acquired j rfl hidle
  | go v next p hp =>
      refine hself ?_
      rintro rfl
      exact .went next p rfl hp
  | commit v j within base row tx hmain hrow =>
      refine hself ?_
      rintro rfl
      exact .committed j within base row tx rfl hmain hrow
  | commit_lost v j within base row tx main hmain hrow hraised =>
      refine hself ?_
      rintro rfl
      exact .commit_lost j within base row tx main rfl hmain hrow hraised
  | raise v main hraised =>
      refine hself ?_
      rintro rfl
      exact .raised main rfl hraised
  | renew_start v j hj =>
      refine hself ?_
      rintro rfl
      exact .renewing j hj
  | renew v j now hj =>
      refine hself ?_
      rintro rfl
      exact .renewed
  | renew_fail v =>
      refine hself ?_
      rintro rfl
      exact .renewed
  | stop v =>
      refine hself ?_
      rintro rfl
      exact .stopped
  | crash v => exact hself fun _ => .restarted _ rfl rfl rfl
  | boot v => exact hself fun _ => .restarted _ rfl rfl rfl
  | _ => exact .kept

/-- A worker is at a job only from its acquisition on. The acquisition may be one whose answer
was lost: then the row carries the worker's id, and the worker does not know. -/
theorem job_cases (h : step cfg s a = some t) {w : Nat} {j : JobId}
    (hjob : (t.procs w).main.job = some j) :
    (s.procs w).main.job = some j ∨ a = .acquire w j false := by
  have hmoved := moved h w
  generalize t.procs w = p at hjob hmoved
  cases hmoved with
  | restarted p hcurrent hrenewal hidle =>
      rw [hidle] at hjob
      cases hjob
  | acquired k ha hidle =>
      obtain rfl := Option.some.inj hjob
      exact Or.inr ha
  | went next p ha hp =>
      left
      cases Process.went hp with
      | read k within row tx hjob' hrow => exact hjob'.trans hjob
      | returned k hmain hnext => cases hjob
      | checked => exact hjob
      | refetched k hmain | entered k hmain | saw_paused k hmain | saw_cancelled k hmain =>
          rw [hmain]
          exact hjob
  | committed k within base row tx ha hmain hrow =>
      left
      rw [hmain]
      cases tx with
      | setup | progress | event_failed => exact hjob
      | checkpoint =>
          cases within
          · cases hjob
          · exact hjob
      | complete | fail => cases hjob
  | commit_lost k within base row tx main ha hmain hrow hraised =>
      rcases Main.raised_cases hraised with rfl | ⟨k', hjob', rfl⟩
      · cases hjob
      · exact Or.inl (hjob'.trans hjob)
  | raised main ha hraised =>
      rcases Main.raised_cases hraised with rfl | ⟨k', hjob', rfl⟩
      · cases hjob
      · exact Or.inl (hjob'.trans hjob)
  | _ => exact Or.inl hjob

/-- **How a worker leaves a job**: its process dies, an exception or a `return` takes it away,
or its final write commits. -/
theorem leaves_cases (h : step cfg s a = some t) {w : Nat} {j : JobId}
    (hjob : (s.procs w).main.job = some j) :
    (t.procs w).main.job = some j ∨
    ((t.procs w).current_job_id = none ∧ (t.procs w).renewal = none) ∨
    (a = .raise w ∧ j ∈ (s.procs w).main.left_by_raise) ∨
    (a = .go w .proceed ∧ j ∈ (s.procs w).main.left_by_return) ∨
    ∃ lost within base tx, a = .commit w lost ∧
      (s.procs w).main = .writing j within base tx ∧ (tx.body base).worker_id = none := by
  have hmoved := moved h w
  generalize t.procs w = p at hmoved
  cases hmoved with
  | restarted p hcurrent hrenewal hidle => exact Or.inr (Or.inl ⟨hcurrent, hrenewal⟩)
  | acquired k ha hidle =>
      rw [hidle] at hjob
      cases hjob
  | went next p ha hp =>
      cases Process.went hp with
      | returned k hmain hnext =>
          rw [hmain] at hjob ⊢
          rw [ha, hnext]
          exact Or.inr (Or.inr (Or.inr (Or.inl ⟨rfl, hjob⟩)))
      | read k within row tx hjob' hrow => exact Or.inl (hjob'.symm.trans hjob)
      | checked => exact Or.inl hjob
      | refetched k hmain | entered k hmain | saw_paused k hmain | saw_cancelled k hmain =>
          rw [hmain] at hjob
          exact Or.inl hjob
  | committed k within base row tx ha hmain hrow =>
      rw [hmain] at hjob
      obtain rfl := Option.some.inj hjob
      cases tx with
      | setup | progress | event_failed => exact Or.inl rfl
      | checkpoint | complete | fail =>
          exact Or.inr (Or.inr (Or.inr (Or.inr ⟨false, within, base, _, ha, hmain, rfl⟩)))
  | commit_lost k within base row tx main ha hmain hrow hraised =>
      rw [hmain] at hjob hraised
      obtain rfl := Option.some.inj hjob
      cases tx with
      | fail error =>
          exact Or.inr (Or.inr (Or.inr (Or.inr ⟨true, within, base, _, ha, hmain, rfl⟩)))
      | _ =>
          cases hraised
          exact Or.inl rfl
  | raised main ha hraised =>
      rcases Main.raised_cases hraised with rfl | ⟨k, hjob', rfl⟩
      · refine Or.inr (Or.inr (Or.inl ⟨ha, ?_⟩))
        rw [Main.left_by_raise, hraised]
        exact hjob
      · exact Or.inl (hjob'.symm.trans hjob)
  | _ => exact Or.inl hjob

/-- A transaction in flight after a step was so before, or it has just read the row. -/
theorem writing_cases (h : step cfg s a = some t) {w : Nat} {j : JobId} {within : Bool}
    {base : ReplayJob} {tx : WorkerTx} (hmain : (t.procs w).main = .writing j within base tx) :
    (s.procs w).main = .writing j within base tx ∨
      (s.rows j = some base ∧ ∃ next, a = .go w next) := by
  have hmoved := moved h w
  generalize t.procs w = p at hmain hmoved
  cases hmoved with
  | restarted p hjob hrenewal hidle =>
      rw [hidle] at hmain
      cases hmain
  | acquired j' ha hidle => cases hmain
  | went next p ha hp =>
      cases Process.went hp with
      | read j' within' row tx' hjob hrow =>
          cases hmain
          exact Or.inr ⟨hrow, next, ha⟩
      | checked => exact Or.inl hmain
      | _ => cases hmain
  | committed j' within' base' row tx' ha hmain' hrow =>
      cases tx' with
      | checkpoint =>
          cases within' <;> cases hmain
      | _ => cases hmain
  | commit_lost j' within' base' row tx' main ha hmain' hrow hraised =>
      rcases Main.raised_cases hraised with rfl | ⟨j', -, rfl⟩ <;> cases hmain
  | raised main ha hraised =>
      rcases Main.raised_cases hraised with rfl | ⟨j', -, rfl⟩ <;> cases hmain
  | _ => exact Or.inl hmain

/-- So was a request. -/
theorem api_cases (h : step cfg s a = some t) {i : Nat} {j : JobId} {tx : ApiTx}
    (htx : t.api i = some (j, .change tx)) :
    s.api i = some (j, .change tx) ∨ s.rows j = some tx.base := by
  have hself : ∀ {i' : Nat} {request : Option (JobId × Request)},
      Function.update s.api i' request i = some (j, .change tx) →
        s.api i = some (j, .change tx) ∨ request = some (j, .change tx) := by
    intro i' request hrequest
    by_cases hi : i = i'
    · rw [hi, Function.update_self] at hrequest
      exact Or.inr hrequest
    · rw [Function.update_of_ne hi] at hrequest
      exact Or.inl hrequest
  cases step_took h with
  | api_read i' j' op row tx' hrow hbase =>
      rcases hself htx with htx | hnew
      · exact Or.inl htx
      · cases hnew
        exact Or.inr (hrow.trans (congrArg some hbase.symm))
  | api_delete i' j' | api_changed i' j' tx' row htx' hrow | api_deleted i' j' row htx' hrow
  | api_abort i' =>
      rcases hself htx with htx | hnew
      · exact Or.inl htx
      · cases hnew
  | _ => exact Or.inl htx

/-- A worker acquires a job when it has none, since the loop of `start` does one thing after the
other. -/
theorem idle_of_acquire {w : Nat} {j : JobId} {lost : Bool}
    (hs : step cfg s (.acquire w j lost) = some t) : (s.procs w).main = .idle := by
  cases step_took hs with
  | acquire _ _ row hidle hrow => exact hidle
  | acquire_lost _ _ row hidle hrow => exact hidle

end

end WalStream.Fleet

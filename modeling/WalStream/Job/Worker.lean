/-
`JobWorker`: what one worker does between two suspensions.

`_execute_job` is an `async` function: it is suspended at every database call, at every
step of the source's generator, at every sleep and at the call of the replayer, and
anything may happen meanwhile. Its control state is a `Phase`, which carries the local
variables still needed, and `Worker.go` is the piece of code up to the next suspension. A
transaction is two pieces: the read, after which the phase is `writing base tx`, and the
commit, which writes `tx.body base` over the row of that moment.
-/
import WalStream.Job.Row
import WalStream.Source.Stream

set_option autoImplicit false

namespace WalStream.Job

open Lib Source

/-! ## Settings and local state -/

/-- The settings and the job's window, all in milliseconds. -/
structure Config where
  window : Window
  job_lease_duration : Nat
  max_event_retries : Nat
  redis_replay_threshold_ms : Nat

/-- `ReplaySourceRouter.get_source`, at the time `now`. -/
def get_source (cfg : Config) (now : Nat) : SourceName :=
  let age_ms : Int := now - cfg.window.start_ms
  let window_ms : Int := cfg.window.end_ms - cfg.window.start_ms
  if age_ms < cfg.redis_replay_threshold_ms ∧ window_ms < cfg.redis_replay_threshold_ms then .redis
  else .kafka

/-- The transactions of a worker, with what their bodies use. -/
inductive WorkerTx
  /-- The source is recorded and the events are counted: `count` is `count_events`. -/
  | setup (source : SourceName) (count : Nat)
  /-- The replayer acknowledged `event`, which `stream` yielded. -/
  | progress (stream : Stream) (event : ReplayEvent) (was_dup : Bool) (now : Nat)
  /-- `event` failed in all its attempts. -/
  | event_failed (event : ReplayEvent) (attempts now : Nat)
  /-- `_checkpoint_job(job_id, last_id, JobStatus.PAUSED)` -/
  | checkpoint (last_id : LastProcessedId) (now : Nat)
  /-- `_complete_job(job_id, JobStatus.COMPLETED)`; `stream` has returned. -/
  | complete (stream : Stream) (now : Nat)
  /-- `_fail_job(job_id, error)` -/
  | fail (error : String)

/-- What is done with the event in hand. -/
inductive Stage
  /-- The generator yielded it. -/
  | yielded
  /-- `self.running` was true; the job's status is read next. -/
  | checking
  /-- The worker waits: for the virtual time, or between two attempts. -/
  | ready (attempt : Nat)
  /-- `ReplayEvent` is called. -/
  | awaiting (attempt : Nat)
  /-- The replayer answered with success or duplicate. -/
  | acked (was_dup : Bool)
  /-- All attempts failed. -/
  | exhausted

/-- Where a worker is. -/
inductive Phase
  /-- In the loop of `start`, not executing the job. -/
  | idle
  /-- The atomic `UPDATE` of `_acquire_job` is committed, the job is not yet read again. -/
  | acquired
  /-- `_execute_job` starts on the job as read by `_acquire_job`. -/
  | fetched (job : ReplayJob)
  /-- A transaction has read `base` and is to commit. -/
  | writing (base : ReplayJob) (tx : WorkerTx)
  /-- In the `async for`, waiting for the next event. -/
  | streaming (job : ReplayJob) (stream : Stream)
  /-- In the body of the `async for`. -/
  | in_hand (job : ReplayJob) (stream : Stream) (event : ReplayEvent) (stage : Stage)
  /-- Before `_checkpoint_job`. -/
  | checkpointing (job : ReplayJob)
  /-- After the `async for`, before `_complete_job`. -/
  | completing (stream : Stream)
  /-- In the `except` clause, before `_fail_job`. -/
  | failing (error : String)

/-- A worker: `self.running`, whether `self.current_job_id` is the job, whether a lease
renewal is under way, and the phase. -/
structure Worker where
  running : Bool
  current_job : Bool
  renewing : Bool
  phase : Phase

/-- A worker that is not there. -/
def Worker.gone : Worker :=
  { running := false, current_job := false, renewing := false, phase := .idle }

/-- A worker that has just been started. -/
def Worker.started : Worker :=
  { running := true, current_job := false, renewing := false, phase := .idle }

/-! ## The bodies of the transactions -/

/-- `_update_checkpoint`. -/
def update_checkpoint (job : ReplayJob) (message_id : MessageId) (source : SourceName) :
    ReplayJob :=
  let job := match source, message_id with
    | .kafka, .kafka p o => { job with checkpoint := some ((job.checkpoint.getD Dict.empty).set p o) }
    | _, _ => job
  { job with last_processed_id := .id message_id }

section

variable {job job' : ReplayJob} {message_id : MessageId} {source : SourceName}

/-- `_update_checkpoint` writes three columns. The lemmas say so of each column that something
later asks about, so that its two branches are never opened again. -/
@[simp] theorem update_checkpoint_last_processed_id :
    (update_checkpoint job message_id source).last_processed_id = .id message_id := rfl

@[simp] theorem update_checkpoint_replay_source :
    (update_checkpoint job message_id source).replay_source = job.replay_source := by
  simp only [update_checkpoint]
  split <;> rfl

@[simp] theorem update_checkpoint_status :
    (update_checkpoint job message_id source).status = job.status := by
  simp only [update_checkpoint]
  split <;> rfl

@[simp] theorem update_checkpoint_worker_id :
    (update_checkpoint job message_id source).worker_id = job.worker_id := by
  simp only [update_checkpoint]
  split <;> rfl

@[simp] theorem update_checkpoint_lease_expires_at :
    (update_checkpoint job message_id source).lease_expires_at = job.lease_expires_at := by
  simp only [update_checkpoint]
  split <;> rfl

@[simp] theorem update_checkpoint_events_total :
    (update_checkpoint job message_id source).events_total = job.events_total := by
  simp only [update_checkpoint]
  split <;> rfl

@[simp] theorem update_checkpoint_events_processed :
    (update_checkpoint job message_id source).events_processed = job.events_processed := by
  simp only [update_checkpoint]
  split <;> rfl

@[simp] theorem update_checkpoint_events_skipped_dedup :
    (update_checkpoint job message_id source).events_skipped_dedup = job.events_skipped_dedup := by
  simp only [update_checkpoint]
  split <;> rfl

/-- The map it writes depends on the map it finds alone. -/
theorem update_checkpoint_checkpoint_congr (h : job'.checkpoint = job.checkpoint) :
    (update_checkpoint job' message_id source).checkpoint
      = (update_checkpoint job message_id source).checkpoint := by
  simp only [update_checkpoint, h]
  split
  · rfl
  · exact h

end

/-- What a transaction does to the job as read. -/
def WorkerTx.body : WorkerTx → ReplayJob → ReplayJob
  | .setup source count, job =>
      { job with
        replay_source := some source,
        events_total := if job.events_total = 0 then count else job.events_total }
  | .progress stream event was_dup now, job =>
      let job :=
        if was_dup then { job with events_skipped_dedup := job.events_skipped_dedup + 1 }
        else { job with events_processed := job.events_processed + 1 }
      -- one transaction for the counter and the checkpoint
      { update_checkpoint job event.message_id stream.source with last_processed_time := some now }
  | .event_failed _ _ now, job =>
      { job with events_failed := job.events_failed + 1, last_processed_time := some now }
  | .checkpoint last_id now, job =>
      { job with
        last_processed_id := last_id,
        last_processed_time := some now,
        status := .paused,
        worker_id := none,
        lease_expires_at := none }
  | .complete _ now, job =>
      { job with
        status := .completed,
        completed_at := some now,
        worker_id := none,
        lease_expires_at := none }
  | .fail error, job =>
      { job with
        status := .failed,
        error_message := some (String.ofList (error.toList.take 1000)),
        error_count := job.error_count + 1,
        worker_id := none,
        lease_expires_at := none }

/-! ## The steps of a worker -/

/-- The `checkpoint` argument of `stream_events`: the per-partition map for a Kafka job that
has one, else `last_processed_id`. -/
def checkpoint_argument (source : SourceName) (job : ReplayJob) : Option Checkpoint :=
  let last_id := job.last_processed_id.toMessageId?.map Checkpoint.id
  match source, job.checkpoint with
  -- an empty map is falsy, and the generator is opened on the last id
  | .kafka, some offsets => if offsets.isEmpty then last_id else some (.json offsets)
  | _, _ => last_id

/-- It is the id of `last_processed_id`, or the map. -/
theorem checkpoint_argument_cases {source : SourceName} {job : ReplayJob} {cp : Checkpoint}
    (h : checkpoint_argument source job = some cp) :
    (∃ id, cp = .id id ∧ job.last_processed_id = .id id) ∨
      ∃ offsets, cp = .json offsets ∧ job.checkpoint = some offsets := by
  have hlast : job.last_processed_id.toMessageId?.map Checkpoint.id = some cp →
      ∃ id, cp = .id id ∧ job.last_processed_id = .id id := by
    intro hlast
    obtain ⟨id, hid, rfl⟩ := Option.map_eq_some_iff.mp hlast
    refine ⟨id, rfl, ?_⟩
    cases hl : job.last_processed_id with
    | null => rw [hl] at hid; cases hid
    | empty => rw [hl] at hid; cases hid
    | id m => rw [hl] at hid; cases hid; rfl
  simp only [checkpoint_argument] at h
  split at h
  · rename_i offsets hjob
    split at h
    · exact Or.inl (hlast h)
    · cases h
      exact Or.inr ⟨offsets, rfl, hjob⟩
  · exact Or.inl (hlast h)

/-- What the environment decides in a step: the partition the consumer delivers from, where
the cached consumer stands, and the replayer's answer, an error of the call counting as
neither success nor duplicate. -/
structure Input where
  choice : Nat := 0
  position : Nat → Nat := fun _ => 0
  success : Bool := false
  was_duplicate : Bool := false

/-- What a step does beside moving the worker: the commit of a transaction, the
acknowledgement of an event, and the advance of the checkpoint to an event. -/
structure Move where
  worker : Worker
  commit : Option (ReplayJob × ReplayJob)
  acked : Option MessageId
  advanced : Option MessageId

/-- A step that only moves the worker. -/
def Worker.to (wk : Worker) (phase : Phase) : Move :=
  { worker := { wk with phase := phase }, commit := none, acked := none, advanced := none }

/-- The worker after the commit of `tx`, whose job is then `job`. -/
def Worker.after_commit (wk : Worker) (tx : WorkerTx) (job : ReplayJob) (world : World)
    (position : Nat → Nat) : Worker :=
  match tx with
  | .setup source _ =>
      -- the generator is opened on the worker's own copy of the job
      match Stream.open source world position (checkpoint_argument source job) with
      | .ok stream => { wk with phase := .streaming job stream }
      | .error _ => { wk with phase := .failing "stream error" }
  | .progress stream _ _ _ => { wk with phase := .streaming job stream }
  | .event_failed event attempts _ =>
      { wk with phase := .failing ("Event " ++ event.message_id.text ++ " failed after "
          ++ toString attempts ++ " attempts") }
  | .checkpoint _ _ => { wk with current_job := false, phase := .idle }
  | .complete _ _ => { wk with current_job := false, phase := .idle }
  | .fail _ => { wk with current_job := false, phase := .idle }

/-- The event whose processing a transaction records. -/
def WorkerTx.advanced : WorkerTx → Option MessageId
  | .progress _ event _ _ => some event.message_id
  | _ => none

/-- The next step of a worker, at the time `now`, on the committed row `row`. -/
def Worker.go (cfg : Config) (now : Nat) (row : ReplayJob) (world : World) (wk : Worker)
    (input : Input) : Option Move :=
  match wk.phase with
  -- an idle worker only moves by acquiring the job
  | .idle => none
  | .acquired => some ({ wk with current_job := true }.to (.fetched row))
  | .fetched job =>
      let source := job.replay_source.getD (get_source cfg now)
      some (wk.to (.writing row (.setup source (count_events cfg.window world source))))
  | .writing base tx =>
      some
        { worker := wk.after_commit tx (tx.body base) world input.position,
          commit := some (base, tx.body base),
          acked := none,
          advanced := tx.advanced }
  | .streaming job stream =>
      match stream.step cfg.window world input.choice with
      | .more stream => some (wk.to (.streaming job stream))
      | .yield event stream => some (wk.to (.in_hand job stream event .yielded))
      | .done stream => some (wk.to (.completing stream))
      | .raise _ => some (wk.to (.failing "stream error"))
  | .in_hand job stream event stage =>
      match stage with
      | .yielded =>
          -- `if not self.running` after the event is taken from the generator
          if wk.running then some (wk.to (.in_hand job stream event .checking))
          else some (wk.to (.checkpointing job))
      | .checking =>
          -- the check looks at the status alone: not at the worker, not at the lease
          if row.status = .paused then some (wk.to (.checkpointing job))
          else if row.status = .cancelled then some ({ wk with current_job := false }.to .idle)
          else some (wk.to (.in_hand job stream event (.ready 1)))
      | .ready attempt => some (wk.to (.in_hand job stream event (.awaiting attempt)))
      | .awaiting attempt =>
          -- a duplicate counts as delivered
          if input.success || input.was_duplicate then
            some { wk.to (.in_hand job stream event (.acked input.was_duplicate)) with
              acked := some event.message_id }
          else if attempt < cfg.max_event_retries + 1 then
            some (wk.to (.in_hand job stream event (.ready (attempt + 1))))
          else some (wk.to (.in_hand job stream event .exhausted))
      | .acked was_dup => some (wk.to (.writing row (.progress stream event was_dup now)))
      | .exhausted =>
          some (wk.to (.writing row (.event_failed event (cfg.max_event_retries + 1) now)))
  | .checkpointing job =>
      some (wk.to (.writing row (.checkpoint job.last_processed_id.orEmpty now)))
  | .completing stream => some (wk.to (.writing row (.complete stream now)))
  | .failing error => some (wk.to (.writing row (.fail error)))

/-! ## What a step of a worker can be -/

section

variable {cfg : Config} {now : Nat} {row : ReplayJob} {world : World} {wk : Worker}
  {input : Input} {m : Move}

@[simp] theorem Worker.to_phase (wk : Worker) (phase : Phase) :
    (wk.to phase).worker.phase = phase := rfl

@[simp] theorem Worker.to_commit (wk : Worker) (phase : Phase) : (wk.to phase).commit = none := rfl

@[simp] theorem Worker.to_acked (wk : Worker) (phase : Phase) : (wk.to phase).acked = none := rfl

@[simp] theorem Worker.to_advanced (wk : Worker) (phase : Phase) :
    (wk.to phase).advanced = none := rfl

/-- **What the next piece of a worker's code can be.** One constructor for each way through
it. -/
inductive Worker.Went (cfg : Config) (now : Nat) (row : ReplayJob) (world : World)
    (wk : Worker) (input : Input) : Move → Prop
  | read_job (hph : wk.phase = .acquired) :
      Went cfg now row world wk input ({ wk with current_job := true }.to (.fetched row))
  | set_up (job : ReplayJob) (source : SourceName) (hph : wk.phase = .fetched job)
      (hsource : source = job.replay_source.getD (get_source cfg now)) :
      Went cfg now row world wk input
        (wk.to (.writing row (.setup source (count_events cfg.window world source))))
  | committed (base : ReplayJob) (tx : WorkerTx) (hph : wk.phase = .writing base tx) :
      Went cfg now row world wk input
        { worker := wk.after_commit tx (tx.body base) world input.position,
          commit := some (base, tx.body base),
          acked := none,
          advanced := tx.advanced }
  | streamed (job : ReplayJob) (stream stream' : Stream) (hph : wk.phase = .streaming job stream)
      (hs : stream.step cfg.window world input.choice = .more stream') :
      Went cfg now row world wk input (wk.to (.streaming job stream'))
  | got_event (job : ReplayJob) (stream stream' : Stream) (event : ReplayEvent)
      (hph : wk.phase = .streaming job stream)
      (hs : stream.step cfg.window world input.choice = .yield event stream') :
      Went cfg now row world wk input (wk.to (.in_hand job stream' event .yielded))
  | stream_ended (job : ReplayJob) (stream stream' : Stream)
      (hph : wk.phase = .streaming job stream)
      (hs : stream.step cfg.window world input.choice = .done stream') :
      Went cfg now row world wk input (wk.to (.completing stream'))
  | stream_raised (job : ReplayJob) (stream : Stream) (error : StreamError)
      (hph : wk.phase = .streaming job stream)
      (hs : stream.step cfg.window world input.choice = .raise error) :
      Went cfg now row world wk input (wk.to (.failing "stream error"))
  | still_running (job : ReplayJob) (stream : Stream) (event : ReplayEvent)
      (hph : wk.phase = .in_hand job stream event .yielded) (hrunning : wk.running = true) :
      Went cfg now row world wk input (wk.to (.in_hand job stream event .checking))
  | shut_down (job : ReplayJob) (stream : Stream) (event : ReplayEvent)
      (hph : wk.phase = .in_hand job stream event .yielded) (hrunning : wk.running = false) :
      Went cfg now row world wk input (wk.to (.checkpointing job))
  | saw_paused (job : ReplayJob) (stream : Stream) (event : ReplayEvent)
      (hph : wk.phase = .in_hand job stream event .checking) (hstatus : row.status = .paused) :
      Went cfg now row world wk input (wk.to (.checkpointing job))
  | saw_cancelled (job : ReplayJob) (stream : Stream) (event : ReplayEvent)
      (hph : wk.phase = .in_hand job stream event .checking) (hstatus : row.status = .cancelled) :
      Went cfg now row world wk input ({ wk with current_job := false }.to .idle)
  | may_send (job : ReplayJob) (stream : Stream) (event : ReplayEvent)
      (hph : wk.phase = .in_hand job stream event .checking) (hpaused : row.status ≠ .paused)
      (hcancelled : row.status ≠ .cancelled) :
      Went cfg now row world wk input (wk.to (.in_hand job stream event (.ready 1)))
  | sent (job : ReplayJob) (stream : Stream) (event : ReplayEvent) (attempt : Nat)
      (hph : wk.phase = .in_hand job stream event (.ready attempt)) :
      Went cfg now row world wk input (wk.to (.in_hand job stream event (.awaiting attempt)))
  | answered (job : ReplayJob) (stream : Stream) (event : ReplayEvent) (attempt : Nat)
      (hph : wk.phase = .in_hand job stream event (.awaiting attempt))
      (hanswer : (input.success || input.was_duplicate) = true) :
      Went cfg now row world wk input
        { wk.to (.in_hand job stream event (.acked input.was_duplicate)) with
          acked := some event.message_id }
  | retried (job : ReplayJob) (stream : Stream) (event : ReplayEvent) (attempt : Nat)
      (hph : wk.phase = .in_hand job stream event (.awaiting attempt))
      (hattempt : attempt < cfg.max_event_retries + 1) :
      Went cfg now row world wk input (wk.to (.in_hand job stream event (.ready (attempt + 1))))
  | gave_up (job : ReplayJob) (stream : Stream) (event : ReplayEvent) (attempt : Nat)
      (hph : wk.phase = .in_hand job stream event (.awaiting attempt))
      (hattempt : ¬ attempt < cfg.max_event_retries + 1) :
      Went cfg now row world wk input (wk.to (.in_hand job stream event .exhausted))
  | records_event (job : ReplayJob) (stream : Stream) (event : ReplayEvent) (was_dup : Bool)
      (hph : wk.phase = .in_hand job stream event (.acked was_dup)) :
      Went cfg now row world wk input (wk.to (.writing row (.progress stream event was_dup now)))
  | records_failure (job : ReplayJob) (stream : Stream) (event : ReplayEvent)
      (hph : wk.phase = .in_hand job stream event .exhausted) :
      Went cfg now row world wk input
        (wk.to (.writing row (.event_failed event (cfg.max_event_retries + 1) now)))
  | checkpoints (job : ReplayJob) (hph : wk.phase = .checkpointing job) :
      Went cfg now row world wk input
        (wk.to (.writing row (.checkpoint job.last_processed_id.orEmpty now)))
  | completes (stream : Stream) (hph : wk.phase = .completing stream) :
      Went cfg now row world wk input (wk.to (.writing row (.complete stream now)))
  | fails (error : String) (hph : wk.phase = .failing error) :
      Went cfg now row world wk input (wk.to (.writing row (.fail error)))

/-- **The inversion of `go`.** The pieces of `_execute_job` are taken apart here and nowhere
else: every invariant of a worker is proved by cases on what the piece was. -/
theorem Worker.went (h : wk.go cfg now row world input = some m) :
    wk.Went cfg now row world input m := by
  unfold Worker.go at h
  split at h
  · cases h
  · rename_i hph
    cases h
    exact .read_job hph
  · rename_i job hph
    cases h
    exact .set_up job _ hph rfl
  · rename_i base tx hph
    cases h
    exact .committed base tx hph
  · rename_i job stream hph
    split at h
    · rename_i stream' hs
      cases h
      exact .streamed job stream stream' hph hs
    · rename_i event stream' hs
      cases h
      exact .got_event job stream stream' event hph hs
    · rename_i stream' hs
      cases h
      exact .stream_ended job stream stream' hph hs
    · rename_i error hs
      cases h
      exact .stream_raised job stream error hph hs
  · rename_i job stream event stage hph
    cases stage with
    | yielded =>
        dsimp only at h
        split at h
        · rename_i hrunning
          cases h
          exact .still_running job stream event hph hrunning
        · rename_i hrunning
          cases h
          exact .shut_down job stream event hph (by simpa using hrunning)
    | checking =>
        dsimp only at h
        split at h
        · rename_i hpaused
          cases h
          exact .saw_paused job stream event hph hpaused
        · rename_i hpaused
          split at h
          · rename_i hcancelled
            cases h
            exact .saw_cancelled job stream event hph hcancelled
          · rename_i hcancelled
            cases h
            exact .may_send job stream event hph hpaused hcancelled
    | ready attempt =>
        cases h
        exact .sent job stream event attempt hph
    | awaiting attempt =>
        dsimp only at h
        split at h
        · rename_i hanswer
          cases h
          exact .answered job stream event attempt hph hanswer
        · split at h
          · rename_i hattempt
            cases h
            exact .retried job stream event attempt hph hattempt
          · rename_i hattempt
            cases h
            exact .gave_up job stream event attempt hph hattempt
    | acked was_dup =>
        cases h
        exact .records_event job stream event was_dup hph
    | exhausted =>
        cases h
        exact .records_failure job stream event hph
  · rename_i job hph
    cases h
    exact .checkpoints job hph
  · rename_i stream hph
    cases h
    exact .completes stream hph
  · rename_i error hph
    cases h
    exact .fails error hph

/-- Only the commit of a transaction changes the row and advances the checkpoint. -/
theorem Worker.go_commit (hph : ∀ base tx, wk.phase ≠ .writing base tx)
    (h : wk.go cfg now row world input = some m) : m.commit = none ∧ m.advanced = none := by
  cases Worker.went h with
  | committed base tx hwriting => exact absurd hwriting (hph base tx)
  | _ => exact ⟨rfl, rfl⟩

/-- A worker that has committed is not within another transaction. -/
theorem Worker.after_commit_not_writing {tx tx' : WorkerTx} {job base : ReplayJob}
    {position : Nat → Nat} : (wk.after_commit tx job world position).phase ≠ .writing base tx' := by
  cases tx with
  | setup source count =>
      simp only [Worker.after_commit]
      split <;> simp
  | _ => simp [Worker.after_commit]

/-- A transaction that a step begins has read the committed row. -/
theorem Worker.go_writing {base : ReplayJob} {tx : WorkerTx}
    (h : wk.go cfg now row world input = some m) (hw : m.worker.phase = .writing base tx) :
    base = row ∧ m.commit = none := by
  cases Worker.went h with
  | set_up | records_event | records_failure | checkpoints | completes | fails =>
      simp only [Worker.to_phase, Phase.writing.injEq] at hw
      exact ⟨hw.1.symm, rfl⟩
  | committed base' tx' hph => exact absurd hw Worker.after_commit_not_writing
  | _ => cases hw

end

/-- Where an exception leads: to the `except` clause of `_execute_job`, and from within
`_acquire_job` or `_fail_job` back to the loop of `start`. -/
def Phase.raised (error : String) : Phase → Option Phase
  | .idle => none
  | .acquired => some .idle
  | .writing _ (.fail _) => some .idle
  | .failing _ => some .idle
  | _ => some (.failing error)

/-- An exception gives up what the worker has in hand. What remains of it is the error's text,
on its way to `_fail_job`, or nothing. -/
theorem Phase.raised_cases {error : String} {phase phase' : Phase}
    (h : phase.raised error = some phase') : phase' = .idle ∨ phase' = .failing error := by
  unfold Phase.raised at h
  split at h <;> cases h
  · exact Or.inl rfl
  · exact Or.inl rfl
  · exact Or.inl rfl
  · exact Or.inr rfl

end WalStream.Job

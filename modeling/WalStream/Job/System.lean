/-
The whole system around one job: its row, the workers, the API requests in flight, the
sources, and time.

Every step is one action: a piece of one worker's code between two suspensions, the read
or the commit of an API request, an append to a source, a lease renewal, the death of a
worker. Nothing orders the steps of different actors, so a run of `step` is an arbitrary
interleaving. `acked`, `advanced` and `owners` record what happened, for the results to
speak about; no actor reads them.
-/
import WalStream.Job.Service
import WalStream.Job.Worker
import WalStream.Lib.Run
import Mathlib.Tactic.Push

set_option autoImplicit false

namespace WalStream.Job

open Lib Source

/-! ## States and actions

The row, the workers, the requests in flight, the sources and the replayer's answers. The last
are part of an action: what the replayer does is for the pipeline's modules to say. -/

/-- An API request that has read the job, changed the object and is to commit. -/
structure ApiTx where
  base : ReplayJob
  op : ApiOp
  now : Nat
  new : ReplayJob
  accepted : op.apply now base = .ok new

structure Sys where
  row : ReplayJob
  workers : Nat → Worker
  /-- The requests in flight. -/
  api : Nat → Option ApiTx
  clock : Nat
  world : World
  /-- The events a worker got an acknowledgement for. -/
  acked : List MessageId
  /-- The events the checkpoint was advanced to. -/
  advanced : List MessageId
  /-- The workers that acquired the job, the last one first. -/
  owners : List Nat

inductive Action
  /-- Time passes. -/
  | tick (ms : Nat)
  /-- `XADD`, with the id Redis gives. -/
  | xadd (e : RedisEntry)
  /-- A producer's write to a partition. -/
  | produce (p : Nat) (m : KafkaMessage)
  /-- A request arrives, reads the job and changes the object, or is refused. -/
  | api_read (t : Nat) (op : ApiOp)
  /-- Its transaction commits. -/
  | api_commit (t : Nat)
  /-- Its transaction is rolled back. -/
  | api_abort (t : Nat)
  /-- The atomic `UPDATE` of `_acquire_job`. -/
  | acquire (w : Nat)
  /-- The next piece of a worker's code. -/
  | go (w : Nat) (input : Input)
  /-- The next piece raises. -/
  | raise (w : Nat) (error : String)
  /-- The renewal loop calls `_renew_lease`; its `UPDATE` runs, or fails. -/
  | renew_start (w : Nat)
  | renew (w : Nat)
  | renew_fail (w : Nat)
  /-- `stop()`. -/
  | stop (w : Nat)
  /-- The process of a worker dies; a stopped or dead one is started. -/
  | crash (w : Nat)
  | boot (w : Nat)
  /-- An idle worker turns to another job. -/
  | leave (w : Nat)

/-- A job that has just been created, before any worker is started. -/
def Sys.initial (speed_factor : Rat) (world : World) (clock : Nat) : Sys :=
  { row := .created speed_factor,
    workers := fun _ => .gone,
    api := fun _ => none,
    clock := clock,
    world := world,
    acked := [],
    advanced := [],
    owners := [] }

/-- Short times, for concrete runs; every job is replayed from Kafka. -/
def short_config : Config :=
  { window := ⟨10, 20⟩,
    job_lease_duration := 60,
    max_event_retries := 0,
    redis_replay_threshold_ms := 0 }

/-- An empty stream and an empty partition. -/
def empty_world : World := ⟨[], [[]]⟩

/-- An empty stream, and a partition with two messages of the window. -/
def two_events : World := ⟨[], [[⟨15, sampleRecord "1"⟩, ⟨16, sampleRecord "2"⟩]]⟩

theorem two_events_sorted : two_events.Sorted :=
  ⟨List.Pairwise.nil, kafkaSorted_of_logs (by decide)⟩

/-- Worker `0` replays the first of `two_events` and renews its lease, while a message is
appended that lies after the window. It gets the answer for the second event and dies before
the answer is recorded. -/
def until_crash : List Action :=
  [.api_read 0 .start, .api_commit 0, .boot 0, .acquire 0, .go 0 {}, .go 0 {}, .go 0 {},
    .go 0 {}, .go 0 {}, .go 0 {}, .go 0 {}, .go 0 {}, .go 0 {}, .go 0 { success := true },
    .go 0 {}, .go 0 {}, .tick 30, .renew_start 0, .renew 0, .produce 0 ⟨25, sampleRecord "3"⟩,
    .go 0 {}, .go 0 {}, .go 0 {}, .go 0 {}, .go 0 {}, .go 0 { success := true }]

/-- When the lease has expired, worker `1` acquires the job and goes on behind the checkpoint;
it learns that the second event is a duplicate, and completes the job. -/
def after_crash : List Action :=
  [.tick 61, .boot 1, .acquire 1, .go 1 {}, .go 1 {}, .go 1 {}, .go 1 {}, .go 1 {}, .go 1 {},
    .go 1 {}, .go 1 {}, .go 1 {}, .go 1 { success := true, was_duplicate := true },
    .go 1 {}, .go 1 {}, .go 1 {}, .go 1 {}, .go 1 {}, .go 1 {}]

/-! ## Steps

Every transaction is two steps, a read and a commit, because the sessions of workers and
requests overlap; an `UPDATE` is one. -/

/-- The `eligible` condition of `_acquire_job`. -/
def eligible (now : Nat) (row : ReplayJob) : Bool :=
  match row.status, row.lease_expires_at with
  -- a queued job without a lease, or any of the two with an expired one
  | .queued, none => true
  | .queued, some lease => decide (lease < now)
  | .running, some lease => decide (lease < now)
  | _, _ => false

/-- The row as `_acquire_job` updates it. -/
def acquired_row (cfg : Config) (now w : Nat) (row : ReplayJob) : ReplayJob :=
  { row with
    worker_id := some w,
    lease_expires_at := some (now + cfg.job_lease_duration),
    status := .running,
    started_at := some (row.started_at.getD now) }

/-- The row as `_renew_lease` of worker `w` updates it. -/
def renewed_row (cfg : Config) (now w : Nat) (row : ReplayJob) : ReplayJob :=
  if row.worker_id = some w then
    { row with lease_expires_at := some (now + cfg.job_lease_duration) }
  else row

/-- Replace one worker. -/
def Sys.set_worker (s : Sys) (w : Nat) (wk : Worker) : Sys :=
  { s with workers := Function.update s.workers w wk }

/-- Carry out a worker's step. -/
def Sys.move (s : Sys) (w : Nat) (m : Move) : Sys :=
  { s with
    workers := Function.update s.workers w m.worker,
    row := match m.commit with
      | some (base, new) => flush base new s.row
      | none => s.row,
    acked := s.acked ++ m.acked.toList,
    advanced := s.advanced ++ m.advanced.toList }

def step (cfg : Config) (s : Sys) : Action → Option Sys
  | .tick ms => some { s with clock := s.clock + ms }
  | .xadd e =>
      if ∀ e' ∈ s.world.redis, e'.id < e.id then some { s with world := s.world.xadd e }
      else none
  | .produce p m =>
      if p < s.world.kafka.length ∧ ∀ m' ∈ s.world.kafka.log p, m'.timestamp ≤ m.timestamp then
        some { s with world := s.world.produce p m }
      else none
  | .api_read t op =>
      match s.api t with
      | some _ => none
      | none =>
          -- the checks run on the row as read, the commit comes later
          match h : op.apply s.clock s.row with
          | .ok new =>
              some { s with api := Function.update s.api t (some ⟨s.row, op, s.clock, new, h⟩) }
          | .error _ => some s
  | .api_commit t =>
      match s.api t with
      | some tx =>
          some { s with row := flush tx.base tx.new s.row, api := Function.update s.api t none }
      | none => none
  | .api_abort t => some { s with api := Function.update s.api t none }
  | .acquire w =>
      match (s.workers w).phase with
      | .idle =>
          -- one atomic `UPDATE … WHERE`, so nothing comes between the check and the write
          if (s.workers w).running && eligible s.clock s.row then
            some { s with
              row := acquired_row cfg s.clock w s.row,
              workers := Function.update s.workers w { s.workers w with phase := .acquired },
              owners := w :: s.owners }
          else none
      | _ => none
  | .go w input =>
      ((s.workers w).go cfg s.clock s.row s.world input).map (s.move w)
  | .raise w error =>
      ((s.workers w).phase.raised error).map fun phase =>
        s.set_worker w { s.workers w with phase := phase }
  | .renew_start w =>
      if (s.workers w).running && (s.workers w).current_job then
        some (s.set_worker w { s.workers w with renewing := true })
      else none
  | .renew w =>
      if (s.workers w).renewing then
        some { s.set_worker w { s.workers w with renewing := false } with
          row := renewed_row cfg s.clock w s.row }
      else none
  | .renew_fail w => some (s.set_worker w { s.workers w with renewing := false })
  | .stop w => some (s.set_worker w { s.workers w with running := false })
  | .crash w => some (s.set_worker w .gone)
  | .boot w =>
      match (s.workers w).phase with
      | .idle => if (s.workers w).running then none else some (s.set_worker w .started)
      | _ => none
  | .leave w =>
      match (s.workers w).phase with
      | .idle => some (s.set_worker w { s.workers w with current_job := false })
      | _ => none

/-! ## What a step can do

Inversions of the step as a whole and of what it does to a worker, to the row, to a request and
to the logs. The invariants of the job's modules are by cases on these. -/

/-- `Took cfg s a t`: the step `a` out of `s`, with its guard, and the state after it. -/
inductive Took (cfg : Config) (s : Sys) : Action → Sys → Prop
  | tick (ms : Nat) : Took cfg s (.tick ms) { s with clock := s.clock + ms }
  | xadd (e : RedisEntry) (hnew : ∀ e' ∈ s.world.redis, e'.id < e.id) :
      Took cfg s (.xadd e) { s with world := s.world.xadd e }
  | produce (p : Nat) (m : KafkaMessage) (hp : p < s.world.kafka.length)
      (hm : ∀ m' ∈ s.world.kafka.log p, m'.timestamp ≤ m.timestamp) :
      Took cfg s (.produce p m) { s with world := s.world.produce p m }
  | api_refused (i : Nat) (op : ApiOp) : Took cfg s (.api_read i op) s
  | api_read (i : Nat) (op : ApiOp) (tx : ApiTx) (hbase : tx.base = s.row) (hop : tx.op = op) :
      Took cfg s (.api_read i op) { s with api := Function.update s.api i (some tx) }
  | api_commit (i : Nat) (tx : ApiTx) (htx : s.api i = some tx) :
      Took cfg s (.api_commit i)
        { s with row := flush tx.base tx.new s.row, api := Function.update s.api i none }
  | api_abort (i : Nat) : Took cfg s (.api_abort i) { s with api := Function.update s.api i none }
  | acquire (w : Nat) (hidle : (s.workers w).phase = .idle) (helig : eligible s.clock s.row = true) :
      Took cfg s (.acquire w)
        { s with
          row := acquired_row cfg s.clock w s.row,
          workers := Function.update s.workers w { s.workers w with phase := .acquired },
          owners := w :: s.owners }
  | go (w : Nat) (input : Input) (m : Move)
      (hm : (s.workers w).go cfg s.clock s.row s.world input = some m) :
      Took cfg s (.go w input) (s.move w m)
  | raise (w : Nat) (error : String) (phase : Phase)
      (hph : (s.workers w).phase.raised error = some phase) :
      Took cfg s (.raise w error) (s.set_worker w { s.workers w with phase := phase })
  | renew_start (w : Nat) :
      Took cfg s (.renew_start w) (s.set_worker w { s.workers w with renewing := true })
  | renew (w : Nat) :
      Took cfg s (.renew w) { s.set_worker w { s.workers w with renewing := false } with
        row := renewed_row cfg s.clock w s.row }
  | renew_fail (w : Nat) :
      Took cfg s (.renew_fail w) (s.set_worker w { s.workers w with renewing := false })
  | stop (w : Nat) : Took cfg s (.stop w) (s.set_worker w { s.workers w with running := false })
  | crash (w : Nat) : Took cfg s (.crash w) (s.set_worker w .gone)
  | boot (w : Nat) (hidle : (s.workers w).phase = .idle) :
      Took cfg s (.boot w) (s.set_worker w .started)
  | leave (w : Nat) :
      Took cfg s (.leave w) (s.set_worker w { s.workers w with current_job := false })

section

variable {cfg : Config} {s t : Sys} {a : Action}

/-- **The inversion of `step`.** -/
theorem step_took (h : step cfg s a = some t) : Took cfg s a t := by
  cases a with
  | tick ms => cases h; exact .tick ms
  | xadd e =>
      simp only [step] at h
      split at h
      · rename_i hnew; cases h; exact .xadd e hnew
      · cases h
  | produce p m =>
      simp only [step] at h
      split at h
      · rename_i hpm; cases h; exact .produce p m hpm.1 hpm.2
      · cases h
  | api_read i op =>
      simp only [step] at h
      split at h
      · cases h
      · split at h
        · cases h; exact .api_read i op _ rfl rfl
        · cases h; exact .api_refused i op
  | api_commit i =>
      simp only [step] at h
      split at h
      · rename_i tx htx; cases h; exact .api_commit i tx htx
      · cases h
  | api_abort i => cases h; exact .api_abort i
  | acquire w =>
      simp only [step] at h
      split at h
      · rename_i hidle
        split at h
        · rename_i hok
          rw [Bool.and_eq_true] at hok
          cases h
          exact .acquire w hidle hok.2
        · cases h
      · cases h
  | go w input =>
      simp only [step, Option.map_eq_some_iff] at h
      obtain ⟨m, hm, rfl⟩ := h
      exact .go w input m hm
  | raise w error =>
      simp only [step, Option.map_eq_some_iff] at h
      obtain ⟨phase, hph, rfl⟩ := h
      exact .raise w error phase hph
  | renew_start w =>
      simp only [step] at h
      split at h
      · cases h; exact .renew_start w
      · cases h
  | renew w =>
      simp only [step] at h
      split at h
      · cases h; exact .renew w
      · cases h
  | renew_fail w => cases h; exact .renew_fail w
  | stop w => cases h; exact .stop w
  | crash w => cases h; exact .crash w
  | boot w =>
      simp only [step] at h
      split at h
      · rename_i hidle
        split at h
        · cases h
        · cases h; exact .boot w hidle
      · cases h
  | leave w =>
      simp only [step] at h
      split at h
      · cases h; exact .leave w
      · cases h

/-- A worker's step commits its transaction, or it leaves the row alone. -/
theorem Sys.move_row {w : Nat} {input : Input} {m : Move}
    (hm : (s.workers w).go cfg s.clock s.row s.world input = some m) :
    (∃ base tx, (s.workers w).phase = .writing base tx ∧
      (s.move w m).row = flush base (tx.body base) s.row) ∨
    ((∀ base tx, (s.workers w).phase ≠ .writing base tx) ∧ (s.move w m).row = s.row) := by
  -- the only piece of a worker's code that touches the row is the commit
  by_cases hph : ∃ base tx, (s.workers w).phase = .writing base tx
  · obtain ⟨base, tx, hph⟩ := hph
    simp only [Worker.go, hph, Option.some.injEq] at hm
    subst hm
    exact Or.inl ⟨base, tx, hph, rfl⟩
  · push Not at hph
    have hcommit := (Worker.go_commit hph hm).1
    exact Or.inr ⟨hph, by simp only [Sys.move, hcommit]⟩

/-- **What a step can do to the row**: nothing, the commit of a request or of a worker's
transaction, an acquisition, or a renewal. -/
theorem row_cases (h : step cfg s a = some t) :
    t.row = s.row ∨
    (∃ i tx, a = .api_commit i ∧ s.api i = some tx ∧ t.row = flush tx.base tx.new s.row) ∨
    (∃ w input base tx, a = .go w input ∧ (s.workers w).phase = .writing base tx ∧
      t.row = flush base (tx.body base) s.row) ∨
    (∃ w, a = .acquire w ∧ eligible s.clock s.row = true ∧
      t.row = acquired_row cfg s.clock w s.row) ∨
    (∃ w, a = .renew w ∧ t.row = renewed_row cfg s.clock w s.row) := by
  cases step_took h with
  | api_commit i tx htx => exact Or.inr (Or.inl ⟨i, tx, rfl, htx, rfl⟩)
  | acquire w _ helig => exact Or.inr (Or.inr (Or.inr (Or.inl ⟨w, rfl, helig, rfl⟩)))
  | renew w => exact Or.inr (Or.inr (Or.inr (Or.inr ⟨w, rfl, rfl⟩)))
  | go w input m hm =>
      rcases Sys.move_row hm with ⟨base, tx, hph, hrow⟩ | ⟨_, hrow⟩
      · exact Or.inr (Or.inr (Or.inl ⟨w, input, base, tx, rfl, hph, hrow⟩))
      · exact Or.inl hrow
  | _ => exact Or.inl rfl

/-- The logs only grow, and stay sorted. -/
theorem world_grows (h : step cfg s a = some t) :
    s.world.Grows t.world ∧ (s.world.Sorted → t.world.Sorted) := by
  cases step_took h with
  | xadd e hnew => exact ⟨World.grows_xadd hnew, fun hsorted => hsorted.xadd hnew⟩
  | produce p m hp hm =>
      exact ⟨World.grows_produce s.world p m, fun hsorted => hsorted.produce hp hm⟩
  | _ => exact ⟨World.Grows.refl _, id⟩

/-- An acknowledgement is never forgotten. -/
theorem acked_grows (h : step cfg s a = some t) : s.acked ⊆ t.acked := by
  cases step_took h with
  | go w input m hm => exact List.subset_append_left _ _
  | _ => exact List.Subset.refl _

/-- Replacing a worker by one in the same phase changes nobody's phase. -/
theorem Sys.set_worker_phase {v : Nat} {wk : Worker} (hwk : wk.phase = (s.workers v).phase)
    (w : Nat) : ((s.set_worker v wk).workers w).phase = (s.workers w).phase := by
  dsimp only [Sys.set_worker]
  by_cases hv : w = v
  · subst hv
    rw [Function.update_self, hwk]
  · rw [Function.update_of_ne hv]

/-- **What a step can do to a worker's phase**: nothing, a restart of its process, its
acquisition of the job, an exception, or its next piece of code. -/
theorem phase_cases (h : step cfg s a = some t) (w : Nat) :
    (t.workers w).phase = (s.workers w).phase ∨
    (t.workers w).phase = .idle ∨
    (a = .acquire w ∧ (s.workers w).phase = .idle ∧ (t.workers w).phase = .acquired) ∨
    (∃ error, a = .raise w error ∧
      (s.workers w).phase.raised error = some (t.workers w).phase) ∨
    (∃ input m, a = .go w input ∧
      (s.workers w).go cfg s.clock s.row s.world input = some m ∧ t = s.move w m) := by
  -- what happens to another worker is nothing to this one
  have hother : ∀ {v : Nat} {wk : Worker}, w ≠ v →
      (Function.update s.workers v wk w).phase = (s.workers w).phase := by
    intro v wk hv
    rw [Function.update_of_ne hv]
  cases step_took h with
  | acquire v hidle _ =>
      by_cases hv : w = v
      · subst hv
        exact Or.inr (Or.inr (Or.inl ⟨rfl, hidle, by dsimp only; rw [Function.update_self]⟩))
      · exact Or.inl (hother hv)
  | go v input m hm =>
      by_cases hv : w = v
      · subst hv
        exact Or.inr (Or.inr (Or.inr (Or.inr ⟨input, m, rfl, hm, rfl⟩)))
      · exact Or.inl (hother hv)
  | raise v error phase hph =>
      by_cases hv : w = v
      · subst hv
        refine Or.inr (Or.inr (Or.inr (Or.inl ⟨error, rfl, ?_⟩)))
        dsimp only [Sys.set_worker]
        rw [Function.update_self]
        exact hph
      · exact Or.inl (hother hv)
  | crash v =>
      by_cases hv : w = v
      · subst hv
        exact Or.inr (Or.inl (by dsimp only [Sys.set_worker]; rw [Function.update_self]; rfl))
      · exact Or.inl (hother hv)
  | boot v hidle =>
      by_cases hv : w = v
      · subst hv
        exact Or.inr (Or.inl (by dsimp only [Sys.set_worker]; rw [Function.update_self]; rfl))
      · exact Or.inl (hother hv)
  | renew_start v => exact Or.inl (Sys.set_worker_phase (by rfl) w)
  | renew v => exact Or.inl (Sys.set_worker_phase (by rfl) w)
  | renew_fail v => exact Or.inl (Sys.set_worker_phase (by rfl) w)
  | stop v => exact Or.inl (Sys.set_worker_phase (by rfl) w)
  | leave v => exact Or.inl (Sys.set_worker_phase (by rfl) w)
  | _ => exact Or.inl rfl

/-- **What holds of a worker's phase after a step**: it is enough that it holds of the phases
that a restart, an acquisition and an exception lead to, of the phase before the step, and
after the worker's own next piece of code. -/
theorem phase_holds {Q : Phase → Prop} (hidle : Q .idle) (hacquired : Q .acquired)
    (hfailing : ∀ error, Q (.failing error)) (h : step cfg s a = some t) {w : Nat}
    (hkeep : Q (s.workers w).phase)
    (hgo : ∀ input m, a = .go w input →
      (s.workers w).go cfg s.clock s.row s.world input = some m → t = s.move w m →
      Q m.worker.phase) :
    Q (t.workers w).phase := by
  rcases phase_cases h w with hph | hph | ⟨_, _, hph⟩ | ⟨error, _, hph⟩ | ⟨input, m, ha, hm, ht⟩
  · rw [hph]
    exact hkeep
  · rw [hph]
    exact hidle
  · rw [hph]
    exact hacquired
  · rcases Phase.raised_cases hph with hph | hph <;> rw [hph]
    · exact hidle
    · exact hfailing error
  · have hq := hgo input m ha hm ht
    rw [ht]
    simp only [Sys.move, Function.update_self]
    exact hq

/-- A transaction of a worker that is in flight after a step was so before, or it has just
read the row. -/
theorem writing_cases (h : step cfg s a = some t) {w : Nat} {base : ReplayJob} {tx : WorkerTx}
    (hw : (t.workers w).phase = .writing base tx) :
    (s.workers w).phase = .writing base tx ∨ (base = s.row ∧ t.row = s.row) := by
  -- a restart, an acquisition and an exception lead out of every transaction
  refine phase_holds (Q := fun phase => phase = .writing base tx → _) ?_ ?_ ?_ h Or.inl ?_ hw
  · rintro ⟨⟩
  · rintro ⟨⟩
  · rintro error ⟨⟩
  · rintro input m - hm rfl hw
    obtain ⟨hbase, hcommit⟩ := Worker.go_writing hm hw
    exact Or.inr ⟨hbase, by simp only [Sys.move, hcommit]⟩

/-- An API request in flight after a step was so before, or it has just read the row. -/
theorem api_cases (h : step cfg s a = some t) {i : Nat} {tx : ApiTx} (hi : t.api i = some tx) :
    s.api i = some tx ∨ (a = .api_read i tx.op ∧ tx.base = s.row ∧ t.row = s.row) := by
  have hupdate : ∀ {j : Nat} {o : Option ApiTx}, Function.update s.api j o i = some tx →
      s.api i = some tx ∨ (i = j ∧ o = some tx) := by
    intro j o ho
    by_cases hij : i = j
    · subst hij
      rw [Function.update_self] at ho
      exact Or.inr ⟨rfl, ho⟩
    · rw [Function.update_of_ne hij] at ho
      exact Or.inl ho
  cases step_took h with
  | api_read j op tx' hbase hop =>
      rcases hupdate hi with hi | ⟨rfl, hnew⟩
      · exact Or.inl hi
      · obtain rfl := Option.some.inj hnew
        exact Or.inr ⟨by rw [hop], hbase, rfl⟩
  | api_commit j tx' _ =>
      rcases hupdate hi with hi | ⟨_, hnone⟩
      · exact Or.inl hi
      · cases hnone
  | api_abort j =>
      rcases hupdate hi with hi | ⟨_, hnone⟩
      · exact Or.inl hi
      · cases hnone
  | _ => exact Or.inl hi

end

end WalStream.Job

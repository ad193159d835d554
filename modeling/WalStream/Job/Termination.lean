/-
A worker does not replay a job forever.

Every piece of a worker's code lowers `Phase.rank`, except an idle poll of the Kafka consumer:
one that brings nothing, or a message of a partition that is completed already, which the
generator skips. (Of such messages there may be any number: the consumer stays assigned to a
completed partition, and producers go on writing to it.) What raises the rank is an entry of
the window that is added while the generator is still to come to it, and the acquisition of
the job. So between two acquisitions a worker takes no more steps than its rank and the
entries added pay for, idle polls apart; after the Kafka snapshot producers add nothing. Redis
has no snapshot: there every entry added within the window is paid for as it comes. And a
worker that is left alone does reach the end of the job.
-/
import WalStream.Job.Delivery
import WalStream.Job.Stopping
import WalStream.Lib.Potential
import WalStream.Source.Work

set_option autoImplicit false

namespace WalStream.Job

open Lib Source

/-! ## The rank of a phase

A measure in natural numbers that pays for everything a worker may still do with the job: the
generator's own work, and for each event it may yield the check, the attempts and the commits.
It is defined phase by phase, so that each piece of code can be seen to take something off. -/

/-- The steps that a unit of the generator's work can lead to: the event is checked, sent in all
its attempts and recorded. The generator's own rank counts entries and messages; here each of
them is multiplied by what the worker does with it. -/
def Config.event_work (cfg : Config) : Nat := 2 * cfg.max_event_retries + 7

def Stage.rank (cfg : Config) : Stage → Nat
  | .yielded => 2 * cfg.max_event_retries + 6
  | .checking => 2 * cfg.max_event_retries + 5
  | .ready attempt => 2 * (cfg.max_event_retries + 1 - attempt) + 4
  | .awaiting attempt => 2 * (cfg.max_event_retries + 1 - attempt) + 3
  | .acked _ => 2
  | .exhausted => 2

/-- An exception leads to `failing`, which is why no phase it can be raised in is below that.
The constant leaves room for `_complete_job` and for what `_fail_job` does in its place. -/
def stream_rank (cfg : Config) (world : World) (stream : Stream) : Nat :=
  5 + cfg.event_work * stream.rank cfg.window world

def WorkerTx.rank (cfg : Config) (world : World) : WorkerTx → Nat
  | .setup _ _ => 6 + cfg.event_work * world.work
  | .progress stream _ _ _ => stream_rank cfg world stream + 1
  | .event_failed _ _ _ => 3
  | .checkpoint _ _ => 3
  | .complete _ _ => 3
  | .fail _ => 1

def Phase.rank (cfg : Config) (world : World) : Phase → Nat
  | .idle => 0
  | .acquired => 8 + cfg.event_work * world.work
  | .fetched _ => 7 + cfg.event_work * world.work
  | .writing _ tx => tx.rank cfg world
  | .streaming _ stream => stream_rank cfg world stream
  | .in_hand _ stream _ stage => stream_rank cfg world stream + stage.rank cfg
  | .checkpointing _ => 4
  | .completing _ => 4
  | .failing _ => 2

/-- The generator is still to be opened. -/
def Phase.opening : Phase → Bool
  | .acquired => true
  | .fetched _ => true
  | .writing _ (.setup _ _) => true
  | _ => false

/-- The open generator satisfies its loop invariant. -/
def Phase.Live (w : Window) (world : World) (phase : Phase) : Prop :=
  ∀ stream, phase.stream? = some stream → stream.Live w world

/-- The next piece of code is an idle poll of the consumer: it brings nothing, or a message of
a partition that is completed already. -/
def Phase.Stalls (world : World) (choice : Nat) : Phase → Prop
  | .streaming _ stream => stream.Stalls world choice
  | _ => False

instance (world : World) (choice : Nat) (phase : Phase) : Decidable (phase.Stalls world choice) := by
  unfold Phase.Stalls
  split <;> infer_instance

/-! ## The worker's own steps

Every piece of a worker's code lowers the rank, but for a poll that gets it nowhere. The loop
invariant of the generator is needed beside it, since the generator's own rank is only bounded
where its positions are those of the logs. -/

section

variable {cfg : Config} {now : Nat} {row : ReplayJob} {world world' : World} {wk : Worker}
  {input : Input} {m : Move}

/-- A phase without an open generator asks nothing of the logs. -/
theorem Phase.live_of_none {phase : Phase} {w : Window} (h : phase.stream? = none) :
    phase.Live w world := by
  intro stream hstream
  rw [h] at hstream
  cases hstream

/-- A phase with one asks that the generator's loop invariant holds. -/
theorem Phase.live_of_some {phase : Phase} {w : Window} {stream : Stream}
    (h : phase.stream? = some stream) (hlive : stream.Live w world) : phase.Live w world := by
  intro stream' hstream
  rw [h, Option.some.injEq] at hstream
  exact hstream ▸ hlive

/-- More work of the generator is more of the rank. -/
theorem stream_rank_le {stream stream' : Stream}
    (h : stream'.rank cfg.window world' ≤ stream.rank cfg.window world) :
    stream_rank cfg world' stream' ≤ stream_rank cfg world stream :=
  Nat.add_le_add_left (Nat.mul_le_mul_left _ h) 5

/-- A generator that gets on pays for everything that may be done with the event it yields: the
whole of it is taken from its rank at once, and given to the stages of the event. -/
theorem stream_rank_lt {stream stream' : Stream}
    (h : stream'.rank cfg.window world < stream.rank cfg.window world) :
    stream_rank cfg world stream' + cfg.event_work ≤ stream_rank cfg world stream := by
  have hmul := Nat.mul_le_mul_left cfg.event_work h
  rw [Nat.mul_succ] at hmul
  unfold stream_rank
  omega

/-- The commit of a transaction. The first one opens the generator, whose work was counted
before as the most that any generator over these logs can have. -/
theorem Worker.rank_after_commit {tx : WorkerTx} {job base : ReplayJob} {position : Nat → Nat}
    (h : (Phase.writing base tx).Live cfg.window world) :
    (wk.after_commit tx job world position).phase.Live cfg.window world ∧
      (wk.after_commit tx job world position).phase.rank cfg world < tx.rank cfg world := by
  cases tx with
  | setup source count =>
      simp only [after_commit]
      split
      · rename_i stream hopen
        obtain ⟨hlive, hwork⟩ :
            stream.Live cfg.window world ∧ stream.rank cfg.window world ≤ world.work :=
          Stream.open_live hopen
        have hle := Nat.mul_le_mul_left cfg.event_work hwork
        refine ⟨Phase.live_of_some rfl hlive, ?_⟩
        simp only [Phase.rank, WorkerTx.rank, stream_rank]
        omega
      · refine ⟨Phase.live_of_none rfl, ?_⟩
        simp only [Phase.rank, WorkerTx.rank]
        omega
  | progress stream event was_dup now =>
      exact ⟨Phase.live_of_some rfl (h stream rfl), Nat.lt_succ_self _⟩
  | event_failed event attempts now => exact ⟨Phase.live_of_none rfl, Nat.lt_succ_self _⟩
  | checkpoint last_id now => exact ⟨Phase.live_of_none rfl, Nat.succ_pos 2⟩
  | complete stream now => exact ⟨Phase.live_of_none rfl, Nat.succ_pos 2⟩
  | fail error => exact ⟨Phase.live_of_none rfl, Nat.succ_pos 0⟩

/-- **One piece of a worker's code** never adds to the rank, and lowers it unless it is an idle
poll. The cases are those of `Went`; in each of them either the generator pays, or the stage of
the event in hand comes nearer to its end. -/
theorem Worker.rank_go (hsorted : world.Sorted) (hlive : wk.phase.Live cfg.window world)
    (hm : wk.go cfg now row world input = some m) :
    m.worker.phase.Live cfg.window world ∧
      m.worker.phase.rank cfg world ≤ wk.phase.rank cfg world ∧
      (¬ wk.phase.Stalls world input.choice →
        m.worker.phase.rank cfg world < wk.phase.rank cfg world) := by
  -- every case but the stalling poll is strict
  have hstrict : ∀ {phase : Phase}, phase.Live cfg.window world →
      phase.rank cfg world < wk.phase.rank cfg world →
      phase.Live cfg.window world ∧ phase.rank cfg world ≤ wk.phase.rank cfg world ∧
        (¬ wk.phase.Stalls world input.choice → phase.rank cfg world < wk.phase.rank cfg world) :=
    fun hlive hlt => ⟨hlive, Nat.le_of_lt hlt, fun _ => hlt⟩
  cases Worker.went hm with
  | read_job hph =>
      refine hstrict (Phase.live_of_none rfl) ?_
      rw [hph]
      simp only [Worker.to_phase, Phase.rank]
      omega
  | set_up job source hph hsource =>
      refine hstrict (Phase.live_of_none rfl) ?_
      rw [hph]
      simp only [Worker.to_phase, Phase.rank, WorkerTx.rank]
      omega
  | committed base tx hph =>
      rw [hph] at hlive
      refine hstrict (Worker.rank_after_commit hlive).1 ?_
      rw [hph]
      exact (Worker.rank_after_commit hlive).2
  | streamed job stream stream' hph hs =>
      rw [hph] at hlive
      obtain ⟨hlive', hle, hlt⟩ := (hlive stream rfl).step_more hs
      refine ⟨Phase.live_of_some rfl hlive', ?_, fun hnot => ?_⟩
      · rw [hph]
        exact stream_rank_le hle
      · rw [hph] at hnot ⊢
        have hdrop := stream_rank_lt (hlt hnot)
        simp only [Worker.to_phase, Phase.rank]
        unfold Config.event_work at hdrop
        omega
  | got_event job stream stream' event hph hs =>
      rw [hph] at hlive
      obtain ⟨hlive', hlt⟩ := (hlive stream rfl).step_yield hsorted hs
      refine hstrict (Phase.live_of_some rfl hlive') ?_
      have hdrop := stream_rank_lt hlt
      rw [hph]
      simp only [Worker.to_phase, Phase.rank, Stage.rank]
      unfold Config.event_work at hdrop
      omega
  | stream_ended job stream stream' hph hs =>
      refine hstrict (Phase.live_of_none rfl) ?_
      rw [hph]
      simp only [Worker.to_phase, Phase.rank, stream_rank]
      omega
  | stream_raised job stream error hph hs =>
      refine hstrict (Phase.live_of_none rfl) ?_
      rw [hph]
      simp only [Worker.to_phase, Phase.rank, stream_rank]
      omega
  | still_running job stream event hph hrunning =>
      rw [hph] at hlive
      refine hstrict (Phase.live_of_some rfl (hlive stream rfl)) ?_
      rw [hph]
      simp only [Worker.to_phase, Phase.rank, Stage.rank]
      omega
  | shut_down job stream event hph hrunning =>
      refine hstrict (Phase.live_of_none rfl) ?_
      rw [hph]
      simp only [Worker.to_phase, Phase.rank, stream_rank]
      omega
  | saw_paused job stream event hph hstatus =>
      refine hstrict (Phase.live_of_none rfl) ?_
      rw [hph]
      simp only [Worker.to_phase, Phase.rank, stream_rank]
      omega
  | saw_cancelled job stream event hph hstatus =>
      refine hstrict (Phase.live_of_none rfl) ?_
      rw [hph]
      simp only [Worker.to_phase, Phase.rank, stream_rank]
      omega
  | may_send job stream event hph hpaused hcancelled =>
      rw [hph] at hlive
      refine hstrict (Phase.live_of_some rfl (hlive stream rfl)) ?_
      rw [hph]
      simp only [Worker.to_phase, Phase.rank, Stage.rank]
      omega
  | sent job stream event attempt hph =>
      rw [hph] at hlive
      refine hstrict (Phase.live_of_some rfl (hlive stream rfl)) ?_
      rw [hph]
      exact Nat.lt_succ_self _
  | answered job stream event attempt hph hanswer =>
      rw [hph] at hlive
      refine hstrict (Phase.live_of_some rfl (hlive stream rfl)) ?_
      rw [hph]
      simp only [Worker.to_phase, Phase.rank, Stage.rank]
      omega
  | retried job stream event attempt hph hattempt =>
      rw [hph] at hlive
      refine hstrict (Phase.live_of_some rfl (hlive stream rfl)) ?_
      rw [hph]
      simp only [Worker.to_phase, Phase.rank, Stage.rank]
      omega
  | gave_up job stream event attempt hph hattempt =>
      rw [hph] at hlive
      refine hstrict (Phase.live_of_some rfl (hlive stream rfl)) ?_
      rw [hph]
      simp only [Worker.to_phase, Phase.rank, Stage.rank]
      omega
  | records_event job stream event was_dup hph =>
      rw [hph] at hlive
      refine hstrict (Phase.live_of_some rfl (hlive stream rfl)) ?_
      rw [hph]
      exact Nat.lt_succ_self _
  | records_failure job stream event hph =>
      refine hstrict (Phase.live_of_none rfl) ?_
      rw [hph]
      simp only [Worker.to_phase, Phase.rank, Stage.rank, WorkerTx.rank, stream_rank]
      omega
  | checkpoints job hph =>
      refine hstrict (Phase.live_of_none rfl) ?_
      rw [hph]
      exact Nat.lt_succ_self _
  | completes stream hph =>
      refine hstrict (Phase.live_of_none rfl) ?_
      rw [hph]
      exact Nat.lt_succ_self _
  | fails error hph =>
      refine hstrict (Phase.live_of_none rfl) ?_
      rw [hph]
      exact Nat.lt_succ_self _

/-- An exception shortens what is left. -/
theorem Phase.rank_raised {error : String} {phase phase' : Phase}
    (h : phase.raised error = some phase') :
    phase'.Live cfg.window world ∧ phase'.rank cfg world < phase.rank cfg world := by
  unfold Phase.raised at h
  split at h
  · cases h
  · cases h
    exact ⟨live_of_none rfl, by simp only [rank]; omega⟩
  · cases h
    exact ⟨live_of_none rfl, Nat.succ_pos 0⟩
  · cases h
    exact ⟨live_of_none rfl, Nat.succ_pos 1⟩
  · rename_i hidle hacquired hfail hfailing
    cases h
    refine ⟨live_of_none rfl, ?_⟩
    cases phase with
    | idle => exact absurd rfl hidle
    | failing error' => exact absurd rfl (hfailing error')
    | writing base tx =>
        cases tx with
        | fail error' => exact absurd rfl (hfail base error')
        | _ => simp only [rank, WorkerTx.rank, stream_rank]; omega
    | _ => simp only [rank, stream_rank]; omega

end

/-! ## What the world adds

New entries and messages are more work, and the rank goes up by what they can cost. A message
written after the Kafka snapshot costs nothing. -/

/-- What an entry added to the Redis stream can cost a worker, in units of the generator's
work. -/
def Phase.xadd_cost (w : Window) (e : RedisEntry) (phase : Phase) : Nat :=
  match phase.stream? with
  | some stream => stream.xadd_cost w e
  | none => if phase.opening then 3 else 0

/-- What a message written to the topic can cost it. -/
def Phase.produce_cost (phase : Phase) : Nat :=
  match phase.stream? with
  | some stream => stream.produce_cost
  | none => if phase.opening then 2 else 0

section

variable {cfg : Config} {world world' : World}

/-- What is added to the logs costs an event's work for every unit. -/
theorem stream_rank_grow {stream : Stream} {n : Nat}
    (h : stream.rank cfg.window world' ≤ stream.rank cfg.window world + n) :
    stream_rank cfg world' stream ≤ stream_rank cfg world stream + cfg.event_work * n := by
  have hmul := Nat.mul_le_mul_left cfg.event_work h
  rw [Nat.mul_add] at hmul
  unfold stream_rank
  omega

/-- If the open generator has `n` more to do, or the generator to be opened has, so has the
phase. -/
theorem Phase.rank_grow {phase : Phase} {n : Nat}
    (hstream : ∀ stream, phase.stream? = some stream →
      stream.rank cfg.window world' ≤ stream.rank cfg.window world + n)
    (hopening : phase.opening = true → world'.work ≤ world.work + n) :
    phase.rank cfg world' ≤ phase.rank cfg world + cfg.event_work * n := by
  have hwork : phase.opening = true →
      cfg.event_work * world'.work ≤ cfg.event_work * world.work + cfg.event_work * n := by
    intro h
    rw [← Nat.mul_add]
    exact Nat.mul_le_mul_left _ (hopening h)
  -- a phase pays for a generator that is open, for one that is to be opened, or for none
  cases phase with
  | acquired =>
      have hle := hwork rfl
      simp only [rank]
      omega
  | fetched job =>
      have hle := hwork rfl
      simp only [rank]
      omega
  | writing base tx =>
      cases tx with
      | setup source count =>
          have hle := hwork rfl
          simp only [rank, WorkerTx.rank]
          omega
      | progress stream event was_dup now =>
          have hle := stream_rank_grow (hstream stream rfl)
          simp only [rank, WorkerTx.rank]
          omega
      | _ => exact Nat.le_add_right _ _
  | streaming job stream => exact stream_rank_grow (hstream stream rfl)
  | in_hand job stream event stage =>
      have hle := stream_rank_grow (hstream stream rfl)
      simp only [rank]
      omega
  | _ => exact Nat.le_add_right _ _

/-- An entry is paid for by whoever is still to read it, and by a worker whose generator is
still to be opened. -/
theorem Phase.rank_xadd (phase : Phase) (e : RedisEntry) :
    phase.rank cfg (world.xadd e)
      ≤ phase.rank cfg world + cfg.event_work * phase.xadd_cost cfg.window e := by
  refine rank_grow (fun stream hstream => ?_) fun hopening => ?_
  · simp only [xadd_cost, hstream]
    exact Stream.rank_xadd e
  · have hnone : phase.stream? = none := by
      unfold opening at hopening
      split at hopening
      · rfl
      · rfl
      · rfl
      · cases hopening
    simp only [xadd_cost, hnone, hopening, if_true]
    exact (World.work_xadd world e).le

/-- So is a message, until the snapshot is taken. -/
theorem Phase.rank_produce (phase : Phase) {p : Nat} (message : KafkaMessage)
    (hp : p < world.kafka.length) :
    phase.rank cfg (world.produce p message)
      ≤ phase.rank cfg world + cfg.event_work * phase.produce_cost := by
  refine rank_grow (fun stream hstream => ?_) fun hopening => ?_
  · simp only [produce_cost, hstream]
    exact Stream.rank_produce message hp
  · have hnone : phase.stream? = none := by
      unfold opening at hopening
      split at hopening
      · rfl
      · rfl
      · rfl
      · cases hopening
    simp only [produce_cost, hnone, hopening, if_true]
    exact (World.work_produce world message hp).le

/-- A generator's invariant survives what is added to the logs. -/
theorem Phase.Live.grow {w : Window} {phase : Phase} (h : phase.Live w world)
    (hg : world.Grows world') : phase.Live w world' :=
  fun stream hstream => (h stream hstream).grow hg

end

/-! ## Runs

Work done and rank left are at most the rank at the start and what was fed: the usual argument
with a potential, over runs in which everybody else does as they like. -/

/-- The steps that get worker `w` on: a piece of its code that is no idle poll, or an
exception. Idle polls cannot be counted with them, since nothing bounds how often the consumer
finds nothing, or how many messages of completed partitions it delivers. -/
def Works (w : Nat) (s : Sys) : Action → Prop
  | .go v input => v = w ∧ ¬ (s.workers w).phase.Stalls s.world input.choice
  | .raise v _ => v = w
  | _ => False

instance (w : Nat) (s : Sys) (a : Action) : Decidable (Works w s a) := by
  unfold Works
  split <;> infer_instance

/-- What a step adds to the rank of worker `w`. -/
def feed (cfg : Config) (w : Nat) (s : Sys) : Action → Nat
  | .xadd e => cfg.event_work * (s.workers w).phase.xadd_cost cfg.window e
  | .produce _ _ => cfg.event_work * (s.workers w).phase.produce_cost
  | _ => 0

/-- Worker `w` does not acquire the job. -/
def NotAcquiring (w : Nat) (_ : Sys) : Action → Prop
  | .acquire v => v ≠ w
  | _ => True

/-- The logs are sorted, and the generator of worker `w` satisfies its loop invariant. -/
structure Executing (cfg : Config) (w : Nat) (s : Sys) : Prop where
  sorted : s.world.Sorted
  live : (s.workers w).phase.Live cfg.window s.world

section

variable {cfg : Config} {s t : Sys} {a : Action} {w : Nat} {tr : List (Sys × Action)}

/-- The invariant of the executions is that of the generator, which no step of anyone breaks. -/
theorem Executing.step (h : Executing cfg w s) (hs : Job.step cfg s a = some t) :
    Executing cfg w t := by
  obtain ⟨hgrows, hsorted⟩ := world_grows hs
  refine ⟨hsorted h.sorted, ?_⟩
  refine phase_holds (Q := fun phase => phase.Live cfg.window t.world) (Phase.live_of_none rfl)
    (Phase.live_of_none rfl) (fun _ => Phase.live_of_none rfl) hs (h.live.grow hgrows) ?_
  rintro input m - hm rfl
  exact (Worker.rank_go h.sorted h.live hm).1

/-- It holds from the creation of the job on. -/
theorem executing_of_run {speed_factor : Rat} {world : World} {clock : Nat}
    (hsorted : world.Sorted)
    (hrun : Run (step cfg) (Sys.initial speed_factor world clock) tr s) (w : Nat) :
    Executing cfg w s :=
  Run.invariant (C := fun _ _ => True) (fun _ _ _ h _ hs => h.step hs)
    ⟨hsorted, Phase.live_of_none rfl⟩ hrun fun _ _ => trivial

/-- The rank of a worker whose phase and world are as they were. Most steps of a run are of this
kind: they belong to someone else. -/
theorem rank_of_same (hworld : t.world = s.world)
    (hphase : (t.workers w).phase = (s.workers w).phase ∨ (t.workers w).phase = .idle) :
    (t.workers w).phase.rank cfg t.world ≤ (s.workers w).phase.rank cfg s.world := by
  rw [hworld]
  rcases hphase with h | h
  · rw [h]
  · rw [h]
    exact Nat.zero_le _

/-- **One step**: the rank pays for the work, and the feed for the rank. A step of the worker
that gets on lowers its rank by one at least and has nothing fed; what other parties add to the
logs is fed before it is spent, so the sum never rises. -/
theorem Executing.pay (h : Executing cfg w s) (hacquire : NotAcquiring w s a)
    (hs : Job.step cfg s a = some t) :
    (t.workers w).phase.rank cfg t.world + (if Works w s a then 1 else 0)
      ≤ (s.workers w).phase.rank cfg s.world + feed cfg w s a := by
  -- a step that neither works nor feeds
  have hsame : ¬ Works w s a → feed cfg w s a = 0 → t.world = s.world →
      ((t.workers w).phase = (s.workers w).phase ∨ (t.workers w).phase = .idle) →
      (t.workers w).phase.rank cfg t.world + (if Works w s a then 1 else 0)
        ≤ (s.workers w).phase.rank cfg s.world + feed cfg w s a := by
    intro hworks hfeed hworld hphase
    rw [if_neg hworks, hfeed]
    exact rank_of_same hworld hphase
  cases step_took hs with
  | xadd e hnew => exact Phase.rank_xadd _ e
  | produce p m hp hm => exact Phase.rank_produce _ m hp
  | go v input m hm =>
      by_cases hv : w = v
      · subst hv
        obtain ⟨-, hle, hlt⟩ := Worker.rank_go h.sorted h.live hm
        simp only [Sys.move, Function.update_self, feed, Nat.add_zero]
        split
        · rename_i hworks
          exact hlt hworks.2
        · exact hle
      · refine hsame (fun hworks => hv hworks.1.symm) rfl rfl (Or.inl ?_)
        simp only [Sys.move, Function.update_of_ne hv]
  | raise v error phase hph =>
      by_cases hv : w = v
      · subst hv
        have hlt : phase.rank cfg s.world < (s.workers w).phase.rank cfg s.world :=
          (Phase.rank_raised hph).2
        simp only [Sys.set_worker, Function.update_self, feed, Works, if_true]
        omega
      · refine hsame (fun hworks => hv (Eq.symm hworks)) rfl rfl (Or.inl ?_)
        simp only [Sys.set_worker, Function.update_of_ne hv]
  | acquire v hidle helig =>
      refine hsame id rfl rfl (Or.inl ?_)
      simp only [Function.update_of_ne (Ne.symm hacquire)]
  | crash v =>
      refine hsame id rfl rfl ?_
      by_cases hv : w = v
      · subst hv
        exact Or.inr (by simp only [Sys.set_worker, Function.update_self]; rfl)
      · exact Or.inl (by simp only [Sys.set_worker, Function.update_of_ne hv])
  | boot v hidle =>
      refine hsame id rfl rfl ?_
      by_cases hv : w = v
      · subst hv
        exact Or.inr (by simp only [Sys.set_worker, Function.update_self]; rfl)
      · exact Or.inl (by simp only [Sys.set_worker, Function.update_of_ne hv])
  | renew_start v => exact hsame id rfl rfl (Or.inl (Sys.set_worker_phase (by rfl) w))
  | renew v => exact hsame id rfl rfl (Or.inl (Sys.set_worker_phase (by rfl) w))
  | renew_fail v => exact hsame id rfl rfl (Or.inl (Sys.set_worker_phase (by rfl) w))
  | stop v => exact hsame id rfl rfl (Or.inl (Sys.set_worker_phase (by rfl) w))
  | leave v => exact hsame id rfl rfl (Or.inl (Sys.set_worker_phase (by rfl) w))
  | _ => exact hsame id rfl rfl (Or.inl rfl)

/-- The steps of the trace that get worker `w` on. -/
def worked (w : Nat) (tr : List (Sys × Action)) : Nat :=
  tr.countP fun p => decide (Works w p.1 p.2)

/-- A run: the rank pays for the work, and the feed for the rank. The induction adds up the
steps; nothing else about the run is used. -/
theorem Executing.paid (h : Executing cfg w s) (hrun : Run (Job.step cfg) s tr t)
    (htr : StepsMeet (NotAcquiring w) tr) :
    (t.workers w).phase.rank cfg t.world + worked w tr
      ≤ (s.workers w).phase.rank cfg s.world + total (feed cfg w) tr := by
  have hpaid := Run.potential (C := NotAcquiring w) (I := Executing cfg w)
    (fun s => (s.workers w).phase.rank cfg s.world)
    (fun s a => if Works w s a then 1 else 0) (feed cfg w)
    (fun _ _ _ h hC hs => ⟨h.step hs, h.pay hC hs⟩) h hrun htr
  rwa [total_ite] at hpaid

/-- **An execution is bounded.** Whatever the other workers, the API and the producers do,
between two acquisitions the steps worker `w` takes, idle polls of the consumer apart, and
those it has left are paid for by what it had left at first and by what was added to the
logs. -/
theorem execution_bounded {speed_factor : Rat} {world : World} {clock : Nat}
    {tr₀ : List (Sys × Action)} (hsorted : world.Sorted)
    (hrun₀ : Run (step cfg) (Sys.initial speed_factor world clock) tr₀ s)
    (hrun : Run (step cfg) s tr t) (htr : StepsMeet (NotAcquiring w) tr) :
    (t.workers w).phase.rank cfg t.world + worked w tr
      ≤ (s.workers w).phase.rank cfg s.world + total (feed cfg w) tr :=
  (executing_of_run hsorted hrun₀ w).paid hrun htr

/-- The sources of the samples are sorted. -/
theorem empty_world_sorted : empty_world.Sorted :=
  ⟨List.Pairwise.nil, kafkaSorted_of_logs (by decide)⟩

/-- Short times, and a job that is replayed from Redis. -/
def short_redis_config : Config := { short_config with redis_replay_threshold_ms := 1000 }

/-- Worker `0` has acquired the job over one entry. -/
def acquired_actions : List Action :=
  [.xadd ⟨⟨15, 0⟩, sampleRecord "1"⟩, .api_read 0 .start, .api_commit 0, .boot 0, .acquire 0]

/-- It sets the job up, a second entry is added, and it replays both. -/
def both_actions : List Action :=
  going 0 [{}, {}, {}] ++ [.xadd ⟨⟨16, 0⟩, sampleRecord "2"⟩] ++
    going 0 (List.replicate 18 { success := true })

/-- The whole of an execution is 21 steps, of the 57 that the job as acquired allows and the
21 more that the second entry does. -/
theorem execution_bounded_both :
    ∃ tr₀ s tr t, Run (step short_redis_config) (Sys.initial 1 empty_world 0) tr₀ s ∧
      Run (step short_redis_config) s tr t ∧ StepsMeet (NotAcquiring 0) tr ∧
      worked 0 tr = 21 ∧ total (feed short_redis_config 0) tr = 21 ∧
      (s.workers 0).phase.rank short_redis_config s.world = 57 ∧
      t.row.status = .completed ∧ t.row.events_processed = 2 ∧
      (t.workers 0).phase.rank short_redis_config t.world + worked 0 tr
        ≤ (s.workers 0).phase.rank short_redis_config s.world
          + total (feed short_redis_config 0) tr := by
  obtain ⟨tr₀, s, hrun₀, hrank, hworked, hfed, hend⟩ :
      ∃ tr₀ s, Run (step short_redis_config) (Sys.initial 1 empty_world 0) tr₀ s ∧
        (s.workers 0).phase.rank short_redis_config s.world = 57 ∧
        worked 0 (trace (step short_redis_config) s both_actions) = 21 ∧
        total (feed short_redis_config 0) (trace (step short_redis_config) s both_actions) = 21 ∧
        (exec (step short_redis_config) s both_actions).map
          (fun t => (t.row.status, t.row.events_processed)) = some (.completed, 2) :=
    exists_run_of_exec acquired_actions (by decide)
  obtain ⟨t, ht, hend⟩ := Option.map_eq_some_iff.mp hend
  have hrun := run_trace ht
  have htr : StepsMeet (NotAcquiring 0) (trace (step short_redis_config) s both_actions) := by
    intro p hp
    have hmem := mem_of_mem_trace hp
    simp only [both_actions, going, List.mem_append, List.mem_map, List.mem_singleton] at hmem
    rcases hmem with (⟨input, -, ha⟩ | ha) | ⟨input, -, ha⟩
    · rw [← ha]
      exact trivial
    · rw [ha]
      exact trivial
    · rw [← ha]
      exact trivial
  exact ⟨tr₀, s, _, t, hrun₀, hrun, htr, hworked, hfed, hrank, congrArg Prod.fst hend,
    congrArg Prod.snd hend, execution_bounded empty_world_sorted hrun₀ hrun htr⟩

/-! ## After the snapshot

Past the snapshot nothing is fed, and the bound is a number. A generator of Redis never comes to
that: it reads on to the end of a stream that may grow. -/

/-- The generator reads Kafka below its snapshot, or is no longer needed. A Redis generator
is never settled: it has no snapshot, and stops at the end of the stream as it then is. -/
structure Phase.Settled (phase : Phase) : Prop where
  stream : ∀ stream, phase.stream? = some stream → stream.settled = true
  opened : phase.opening = false

instance (phase : Phase) : Decidable phase.Settled :=
  decidable_of_iff ((∀ stream ∈ phase.stream?, stream.settled = true) ∧ phase.opening = false)
    ⟨fun h => ⟨h.1, h.2⟩, fun h => ⟨h.1, h.2⟩⟩

/-- A phase that needs no generator any more is settled. -/
theorem Phase.settled_of_none {phase : Phase} (h : phase.stream? = none)
    (hopened : phase.opening = false) : phase.Settled := by
  refine ⟨fun stream hstream => ?_, hopened⟩
  rw [h] at hstream
  cases hstream

/-- A phase with one is settled when its generator has taken the snapshot. -/
theorem Phase.settled_of_some {phase : Phase} {stream : Stream} (h : phase.stream? = some stream)
    (hsettled : stream.settled = true) (hopened : phase.opening = false) : phase.Settled := by
  refine ⟨fun stream' hstream => ?_, hopened⟩
  rw [h, Option.some.injEq] at hstream
  exact hstream ▸ hsettled

/-- Nothing that is written costs a worker past its snapshot anything. -/
theorem Phase.Settled.feed_eq (h : (s.workers w).phase.Settled) (a : Action) :
    feed cfg w s a = 0 := by
  cases hstream : (s.workers w).phase.stream? with
  | none =>
      cases a with
      | xadd e => simp [feed, Phase.xadd_cost, hstream, h.opened]
      | produce p m => simp [feed, Phase.produce_cost, hstream, h.opened]
      | _ => rfl
  | some stream =>
      have hsettled := h.stream stream hstream
      cases a with
      | xadd e => simp [feed, Phase.xadd_cost, hstream, Stream.xadd_cost_of_settled hsettled]
      | produce p m =>
          simp [feed, Phase.produce_cost, hstream, Stream.produce_cost_of_settled hsettled]
      | _ => rfl

/-- A worker past its snapshot stays so. The one way back would be to open a generator anew, and
only a new acquisition leads there. -/
theorem Worker.settled_go {now : Nat} {row : ReplayJob} {world : World} {wk : Worker}
    {input : Input} {m : Move} (h : wk.phase.Settled) (hlive : wk.phase.Live cfg.window world)
    (hm : wk.go cfg now row world input = some m) : m.worker.phase.Settled := by
  cases Worker.went hm with
  | read_job hph | set_up job source hph hsource =>
      have hopened := h.opened
      rw [hph] at hopened
      cases hopened
  | committed base tx hph =>
      rw [hph] at h
      cases tx with
      | setup source count => cases h.opened
      | progress stream event was_dup now =>
          exact Phase.settled_of_some rfl (h.stream stream rfl) rfl
      | _ => exact Phase.settled_of_none rfl rfl
  | streamed job stream stream' hph hs =>
      rw [hph] at h hlive
      exact Phase.settled_of_some rfl ((hlive stream rfl).settled_more (h.stream stream rfl) hs) rfl
  | got_event job stream stream' event hph hs =>
      rw [hph] at h hlive
      exact Phase.settled_of_some rfl ((hlive stream rfl).settled_yield (h.stream stream rfl) hs) rfl
  | still_running job stream event hph | may_send job stream event hph | sent job stream event _ hph
  | answered job stream event _ hph | retried job stream event _ hph | gave_up job stream event _ hph
  | records_event job stream event _ hph =>
      rw [hph] at h
      exact Phase.settled_of_some rfl (h.stream stream rfl) rfl
  | _ => exact Phase.settled_of_none rfl rfl

/-- **After the Kafka snapshot an execution is bounded outright**: whatever is written to the
logs, and whatever the other workers and the API do, a worker past its snapshot takes no more
steps than it had left then, idle polls of the consumer apart. -/
theorem settled_execution_bounded {speed_factor : Rat} {world : World} {clock : Nat}
    {tr₀ : List (Sys × Action)} (hsorted : world.Sorted)
    (hrun₀ : Run (step cfg) (Sys.initial speed_factor world clock) tr₀ s)
    (hsettled : (s.workers w).phase.Settled)
    (hrun : Run (step cfg) s tr t) (htr : StepsMeet (NotAcquiring w) tr) :
    (t.workers w).phase.rank cfg t.world + worked w tr ≤ (s.workers w).phase.rank cfg s.world := by
  -- the bound of any execution, with nothing fed
  have hpaid := (executing_of_run hsorted hrun₀ w).paid hrun htr
  have hstep : ∀ s a t, Executing cfg w s ∧ (s.workers w).phase.Settled → NotAcquiring w s a →
      step cfg s a = some t → Executing cfg w t ∧ (t.workers w).phase.Settled := by
    rintro s a t ⟨hexec, hsettled⟩ hacquire hs
    refine ⟨hexec.step hs, ?_⟩
    rcases phase_cases hs w with hph | hph | ⟨ha, -, -⟩ | ⟨error, -, hph⟩ | ⟨input, m, -, hm, rfl⟩
    · rwa [hph]
    · rw [hph]
      exact Phase.settled_of_none rfl rfl
    · rw [ha] at hacquire
      exact absurd rfl hacquire
    · rcases Phase.raised_cases hph with hph | hph
      · rw [hph]
        exact Phase.settled_of_none rfl rfl
      · rw [hph]
        exact Phase.settled_of_none rfl rfl
    · simp only [Sys.move, Function.update_self]
      exact Worker.settled_go hsettled hexec.live hm
  have hall := hrun.invariant_mem hstep ⟨executing_of_run hsorted hrun₀ w, hsettled⟩ htr
  -- which is so because the worker stays past its snapshot
  have hfeed : total (feed cfg w) tr = 0 := by
    refine List.sum_eq_zero fun n hn => ?_
    obtain ⟨p, hp, rfl⟩ := List.mem_map.mp hn
    exact (hall p hp).2.feed_eq p.2
  rwa [hfeed] at hpaid

/-- The job over one message is started and acquired, and the snapshot is taken. -/
def snapshot_actions : List Action :=
  [.produce 0 ⟨15, sampleRecord "1"⟩, .api_read 0 .start, .api_commit 0, .boot 0, .acquire 0] ++
    going 0 [{}, {}, {}, {}, {}]

/-- Another message is written; the worker replays the first one and completes the job. -/
def rest_actions : List Action :=
  .produce 0 ⟨16, sampleRecord "2"⟩ ::
    going 0 [{}, {}, {}, {}, { success := true }, {}, {}, {}, {}, {}]

/-- The steps after the snapshot are the ten that complete the job, and the message written
meanwhile is not among them. -/
theorem settled_execution_bounded_ten :
    ∃ tr₀ s tr t, Run (step short_config) (Sys.initial 1 empty_world 0) tr₀ s ∧
      (s.workers 0).phase.Settled ∧ Run (step short_config) s tr t ∧
      StepsMeet (NotAcquiring 0) tr ∧ worked 0 tr = 10 ∧ t.row.status = .completed ∧
      (t.workers 0).phase.rank short_config t.world + worked 0 tr
        ≤ (s.workers 0).phase.rank short_config s.world := by
  obtain ⟨tr₀, s, hrun₀, hsettled, hworked, hend⟩ :
      ∃ tr₀ s, Run (step short_config) (Sys.initial 1 empty_world 0) tr₀ s ∧
        (s.workers 0).phase.Settled ∧ worked 0 (trace (step short_config) s rest_actions) = 10 ∧
        (exec (step short_config) s rest_actions).map (fun t => t.row.status) = some .completed :=
    exists_run_of_exec snapshot_actions (by decide)
  obtain ⟨t, ht, hstatus⟩ := Option.map_eq_some_iff.mp hend
  have hrun := run_trace ht
  have htr : StepsMeet (NotAcquiring 0) (trace (step short_config) s rest_actions) := by
    intro p hp
    rcases List.mem_cons.mp (mem_of_mem_trace hp) with ha | ha
    · rw [ha]
      exact trivial
    · obtain ⟨input, -, ha⟩ := List.mem_map.mp ha
      rw [← ha]
      exact trivial
  exact ⟨tr₀, s, _, t, hrun₀, hsettled, hrun, htr, hworked, hstatus,
    settled_execution_bounded empty_world_sorted hrun₀ hsettled hrun htr⟩

end

end WalStream.Job

/-
No state of the system is a dead end.

A job can be left in odd states: `RUNNING` without a lease, `QUEUED` under a live one, owned
by a worker that is gone. From every one that is not terminal an operator gets it to its end
by restarting one worker, and by starting, or pausing and resuming, the job. It ends
`COMPLETED` if its checkpoint can be opened at the source it will be replayed from, and
`FAILED` otherwise.
-/
import WalStream.Job.Termination

set_option autoImplicit false

namespace WalStream.Job

open Lib Source

/-! ## A worker that is left alone

The rank bounds what a worker does; that it comes to `COMPLETED`, and not to an error or a
pause, needs that every call is answered with success and that nobody writes the row.
`Phase.Alone` says where such a worker can be, and is kept by a step that also lowers the rank. -/

/-- The checkpoint of the row can be opened at the source. It cannot when it is a text of the
other source, and then the job fails, again and again: this is the one thing that restarting a
worker does not mend. -/
def Openable (world : World) (source : SourceName) (row : ReplayJob) : Prop :=
  ∃ stream, Stream.open source world (fun _ => 0) (checkpoint_argument source row) = .ok stream

/-- The source the next execution of the job reads. -/
def next_source (cfg : Config) (now : Nat) (row : ReplayJob) : SourceName :=
  row.replay_source.getD (get_source cfg now)

/-- Where a worker can be that executes the job alone, every call being answered with success;
`ok` says that the checkpoint can be opened. What it carries is what the last transaction needs:
that the row is as the worker has read it. -/
def Phase.Alone (cfg : Config) (now : Nat) (world : World) (row : ReplayJob) (ok : Prop) :
    Phase → Prop
  | .idle => (ok → row.status = .completed) ∧ (¬ ok → row.status = .failed)
  | .acquired => Openable world (next_source cfg now row) row ↔ ok
  | .fetched job => job = row ∧ (Openable world (next_source cfg now row) row ↔ ok)
  | .writing base tx => base = row ∧
      match tx with
      | .setup source _ => Openable world source row ↔ ok
      | .progress _ _ _ _ => ok
      | .complete _ _ => ok
      | .fail _ => ¬ ok
      | _ => False
  | .streaming _ _ => ok
  | .in_hand _ _ _ stage => ok ∧ stage ≠ .exhausted
  | .checkpointing _ => False
  | .completing _ => ok
  | .failing _ => ¬ ok

/-- Worker `v` runs, and executes the job alone. -/
structure Alone (cfg : Config) (v : Nat) (ok : Prop) (s : Sys) : Prop where
  executing : Executing cfg v s
  running : (s.workers v).running = true
  status : (s.workers v).phase ≠ .idle → s.row.status = .running
  phase : (s.workers v).phase.Alone cfg s.clock s.world s.row ok

section

variable {cfg : Config} {s t : Sys} {v : Nat} {ok : Prop}

/-- A worker that is not idle has a next piece of code. Every suspension of the code returns in
some way, so none of the phases is a dead end by itself. -/
theorem Worker.exists_go {now : Nat} {row : ReplayJob} {world : World} {wk : Worker}
    (h : wk.phase ≠ .idle) (input : Input) : ∃ m, wk.go cfg now row world input = some m := by
  unfold Worker.go
  split
  · rename_i hph
    exact absurd hph h
  · exact ⟨_, rfl⟩
  · exact ⟨_, rfl⟩
  · exact ⟨_, rfl⟩
  · split <;> exact ⟨_, rfl⟩
  · split
    · split <;> exact ⟨_, rfl⟩
    · split
      · exact ⟨_, rfl⟩
      · split <;> exact ⟨_, rfl⟩
    · exact ⟨_, rfl⟩
    · split
      · exact ⟨_, rfl⟩
      · split <;> exact ⟨_, rfl⟩
    · exact ⟨_, rfl⟩
    · exact ⟨_, rfl⟩
  · exact ⟨_, rfl⟩
  · exact ⟨_, rfl⟩
  · exact ⟨_, rfl⟩

/-- The columns an opening reads. -/
theorem Openable.congr {world : World} {source : SourceName} {row row' : ReplayJob}
    (hlast : row'.last_processed_id = row.last_processed_id)
    (hmap : row'.checkpoint = row.checkpoint) :
    Openable world source row' ↔ Openable world source row := by
  unfold Openable checkpoint_argument
  rw [hlast, hmap]

/-- The commit of a transaction by a worker that is alone. Nobody has written the row since it
was read, so the row becomes what the transaction has made of it. -/
theorem Worker.alone_commit {now : Nat} {world : World} {wk : Worker} {base : ReplayJob} {tx : WorkerTx}
    {position : Nat → Nat} (hstatus : base.status = .running)
    (h : (Phase.writing base tx).Alone cfg now world base ok) :
    (wk.after_commit tx (tx.body base) world position).phase.Alone cfg now world (tx.body base) ok ∧
      ((wk.after_commit tx (tx.body base) world position).phase ≠ .idle →
        (tx.body base).status = .running) := by
  obtain ⟨-, h⟩ := h
  cases tx with
  | setup source count =>
      have hany : (∃ stream, Stream.open source world position
          (checkpoint_argument source ((WorkerTx.setup source count).body base)) = .ok stream) ↔
          Openable world source ((WorkerTx.setup source count).body base) := Stream.open_ok_iff
      have hopen := hany.trans ((Openable.congr rfl rfl).trans h)
      refine ⟨?_, fun _ => hstatus⟩
      simp only [after_commit]
      split
      · rename_i stream hstream
        exact hopen.mp ⟨stream, hstream⟩
      · rename_i error herror
        intro hok
        obtain ⟨stream, hstream⟩ := hopen.mpr hok
        rw [herror] at hstream
        cases hstream
  | progress stream event was_dup now =>
      refine ⟨h, fun _ => ?_⟩
      simp only [WorkerTx.body, update_checkpoint_status]
      split <;> exact hstatus
  | event_failed event attempts now => exact h.elim
  | checkpoint last_id now => exact h.elim
  | complete stream now => exact ⟨⟨fun _ => rfl, fun hnot => absurd h hnot⟩, fun hne => absurd rfl hne⟩
  | fail error => exact ⟨⟨fun hok => absurd hok h, fun _ => rfl⟩, fun hne => absurd rfl hne⟩

/-- A piece of code that is no commit, by a worker that is alone and is answered with
success. -/
theorem Worker.alone_go {now : Nat} {row : ReplayJob} {world : World} {wk : Worker} {input : Input}
    {m : Move} (hrunning : wk.running = true) (hlive : wk.phase.Live cfg.window world)
    (hstatus : row.status = .running) (h : wk.phase.Alone cfg now world row ok)
    (hsuccess : input.success = true) (hph : ∀ base tx, wk.phase ≠ .writing base tx)
    (hm : wk.go cfg now row world input = some m) :
    m.worker.phase.Alone cfg now world row ok ∧ m.worker.phase ≠ .idle := by
  cases Worker.went hm with
  | read_job hph =>
      rw [hph] at h
      exact ⟨⟨rfl, h⟩, Phase.noConfusion⟩
  | set_up job source hph hsource =>
      rw [hph] at h
      obtain ⟨rfl, h⟩ := h
      rw [hsource]
      exact ⟨⟨rfl, h⟩, Phase.noConfusion⟩
  | committed base tx hwriting => exact absurd hwriting (hph base tx)
  | streamed job stream stream' hph hs =>
      rw [hph] at h
      exact ⟨h, Phase.noConfusion⟩
  | got_event job stream stream' event hph hs =>
      rw [hph] at h
      exact ⟨⟨h, Stage.noConfusion⟩, Phase.noConfusion⟩
  | stream_ended job stream stream' hph hs =>
      rw [hph] at h
      exact ⟨h, Phase.noConfusion⟩
  | stream_raised job stream error hph hs =>
      rw [hph] at hlive
      exact absurd hs ((hlive stream rfl).step_not_raise error)
  | still_running job stream event hph hrunning =>
      rw [hph] at h
      exact ⟨⟨h.1, Stage.noConfusion⟩, Phase.noConfusion⟩
  | shut_down job stream event hph hstopped =>
      rw [hrunning] at hstopped
      cases hstopped
  | saw_paused job stream event hph hpaused =>
      rw [hstatus] at hpaused
      cases hpaused
  | saw_cancelled job stream event hph hcancelled =>
      rw [hstatus] at hcancelled
      cases hcancelled
  | may_send job stream event hph hpaused hcancelled =>
      rw [hph] at h
      exact ⟨⟨h.1, Stage.noConfusion⟩, Phase.noConfusion⟩
  | sent job stream event attempt hph =>
      rw [hph] at h
      exact ⟨⟨h.1, Stage.noConfusion⟩, Phase.noConfusion⟩
  | answered job stream event attempt hph hanswer =>
      rw [hph] at h
      exact ⟨⟨h.1, Stage.noConfusion⟩, Phase.noConfusion⟩
  | retried job stream event attempt hph hattempt =>
      rw [hph] at h
      exact ⟨⟨h.1, Stage.noConfusion⟩, Phase.noConfusion⟩
  | gave_up job stream event attempt hph hattempt =>
      -- the call was answered
      simp [Worker.go, hph, hsuccess, Worker.to] at hm
  | records_event job stream event was_dup hph =>
      rw [hph] at h
      exact ⟨⟨rfl, h.1⟩, Phase.noConfusion⟩
  | records_failure job stream event hph =>
      rw [hph] at h
      exact absurd rfl h.2
  | checkpoints job hph =>
      rw [hph] at h
      exact h.elim
  | completes stream hph =>
      rw [hph] at h
      exact ⟨⟨rfl, h⟩, Phase.noConfusion⟩
  | fails error hph =>
      rw [hph] at h
      exact ⟨⟨rfl, h⟩, Phase.noConfusion⟩

/-- No piece of a worker's code stops the worker. -/
theorem Worker.go_running {now : Nat} {row : ReplayJob} {world : World} {wk : Worker}
    {input : Input} {m : Move} (hm : wk.go cfg now row world input = some m) :
    m.worker.running = wk.running := by
  cases Worker.went hm with
  | committed base tx hph =>
      cases tx with
      | setup source count =>
          simp only [after_commit]
          split <;> rfl
      | _ => rfl
  | _ => rfl

/-- Some choice of the partition is no idle poll. So a fair consumer gets the generator on. -/
theorem Phase.exists_not_stalls {w : Window} {world : World} {phase : Phase}
    (h : phase.Live w world) : ∃ choice, ¬ phase.Stalls world choice := by
  cases phase with
  | streaming job stream => exact Stream.exists_not_stalls (h stream rfl)
  | _ => exact ⟨0, id⟩

/-- **Alone, one step.** A worker that executes the job alone has a step that gets it on. It
lowers the rank of `Job.Termination`, so such steps come to an end. -/
theorem Alone.progress (h : Alone cfg v ok s) (hbusy : (s.workers v).phase ≠ .idle) :
    ∃ input t, step cfg s (.go v input) = some t ∧ Alone cfg v ok t ∧
      (t.workers v).phase.rank cfg t.world < (s.workers v).phase.rank cfg s.world := by
  -- a fair choice of the partition, and every call answered with success
  obtain ⟨choice, hnot⟩ := Phase.exists_not_stalls h.executing.live
  obtain ⟨m, hm⟩ : ∃ m, (s.workers v).go cfg s.clock s.row s.world
      { choice := choice, success := true } = some m := Worker.exists_go hbusy _
  have hstep : step cfg s (.go v { choice := choice, success := true }) = some (s.move v m) := by
    simp only [step, hm, Option.map_some]
  have hrank := (Worker.rank_go h.executing.sorted h.executing.live hm).2.2 hnot
  have hwk : (s.move v m).workers v = m.worker := by
    simp only [Sys.move, Function.update_self]
  have hstatus := h.status hbusy
  have hafter : m.worker.phase.Alone cfg s.clock s.world (s.move v m).row ok ∧
      (m.worker.phase ≠ .idle → (s.move v m).row.status = .running) := by
    rcases Sys.move_row hm with ⟨base, tx, hph, hrow⟩ | ⟨hph, hrow⟩
    · -- nobody has written the row since the transaction read it
      have halone := h.phase
      rw [hph] at halone
      have hbase : base = s.row := halone.1
      subst hbase
      rw [flush_current] at hrow
      simp only [Worker.go, hph, Option.some.injEq] at hm
      subst hm
      rw [hrow]
      exact Worker.alone_commit hstatus halone
    · rw [hrow]
      exact ⟨(Worker.alone_go h.running h.executing.live hstatus h.phase rfl hph hm).1,
        fun _ => hstatus⟩
  refine ⟨_, _, hstep, ⟨h.executing.step hstep, ?_, ?_, ?_⟩, ?_⟩
  · rw [hwk, Worker.go_running hm]
    exact h.running
  · rw [hwk]
    exact hafter.2
  · rw [hwk]
    exact hafter.1
  · rw [hwk]
    exact hrank

/-- **A worker that is left alone finishes.** By induction on the rank, and not on the phase,
which may return to where it was with every event. -/
theorem Alone.finishes (h : Alone cfg v ok s) :
    ∃ tr t, Run (step cfg) s tr t ∧ StepsMeet (fun _ a => ∃ input, a = .go v input) tr ∧
      (t.workers v).phase = .idle ∧ (ok → t.row.status = .completed) ∧
      (¬ ok → t.row.status = .failed) := by
  have hprogress : ∀ s, Alone cfg v ok s → ¬ (s.workers v).phase = .idle →
      ∃ a t, (∃ input, a = Action.go v input) ∧ step cfg s a = some t ∧ Alone cfg v ok t ∧
        (t.workers v).phase.rank cfg t.world < (s.workers v).phase.rank cfg s.world := by
    intro s h hbusy
    obtain ⟨input, t, hstep, halone, hlt⟩ := h.progress hbusy
    exact ⟨_, t, ⟨input, rfl⟩, hstep, halone, hlt⟩
  obtain ⟨tr, t, hrun, htr, halone, hidle⟩ :=
    exists_run_of_rank (C := fun _ a => ∃ input, a = Action.go v input)
      (fun s => (s.workers v).phase.rank cfg s.world) hprogress h
  have hphase := halone.phase
  rw [hidle] at hphase
  exact ⟨tr, t, hrun, htr, hidle, hphase.1, hphase.2⟩

end

/-! ## From any state

Whatever has become of a job that is not terminal, there is a way to its end: an operator queues
the job, the lease runs out if it has one, and one worker is started and left alone. No
reachable state is too odd for that, which is proved by going through the statuses. -/

/-- What an operator does to revive a job: time passes, one request at a time, and worker `v` is
restarted and executes the job. The other workers take no step; they may be anywhere, with
transactions in flight that never commit. -/
def Reviving (v : Nat) (_ : Sys) : Action → Prop
  | .tick _ => True
  | .api_read i op => i = 0 ∧ (op = .start ∨ op = .pause ∨ op = .resume)
  | .api_commit i => i = 0
  | .api_abort i => i = 0
  | .crash w => w = v
  | .boot w => w = v
  | .acquire w => w = v
  | .go w _ => w = v
  | _ => False

section

variable {cfg : Config} {s t : Sys} {v : Nat}

/-- A request that is accepted as it reads the row. -/
theorem exists_api_read (cfg : Config) {i : Nat} {op : ApiOp} {new : ReplayJob} (hnone : s.api i = none)
    (h : op.apply s.clock s.row = .ok new) :
    ∃ t tx, step cfg s (.api_read i op) = some t ∧ t.api i = some tx ∧ tx.base = s.row ∧
      tx.new = new ∧ t.row = s.row ∧ t.workers = s.workers ∧ t.world = s.world ∧
      t.clock = s.clock := by
  simp only [step, hnone]
  split
  · rename_i new' h'
    obtain rfl : new' = new := by
      rw [h] at h'
      exact (Except.ok.inj h').symm
    exact ⟨_, _, rfl, Function.update_self .., rfl, rfl, rfl, rfl, rfl, rfl⟩
  · rename_i e h'
    rw [h] at h'
    cases h'

/-- A request that is carried through with nothing in between, so that the row it commits to is
the row it has read. -/
theorem exists_request {op : ApiOp} {new : ReplayJob}
    (h : op.apply s.clock s.row = .ok new) (hop : op = .start ∨ op = .pause ∨ op = .resume) :
    ∃ tr t, Run (step cfg) s tr t ∧ StepsMeet (Reviving v) tr ∧ t.row = new ∧
      t.workers = s.workers ∧ t.world = s.world ∧ t.clock = s.clock := by
  have habort : step cfg s (.api_abort 0) =
      some { s with api := Function.update s.api 0 none } := rfl
  have hnone : Function.update s.api 0 none 0 = none := Function.update_self ..
  obtain ⟨u, tx, hread, htx, hbase, hnew, hrow, hworkers, hworld, hclock⟩ :=
    exists_api_read cfg (s := { s with api := Function.update s.api 0 none }) (i := 0) hnone h
  have hcommit : step cfg u (.api_commit 0) = some
      { u with row := flush tx.base tx.new u.row, api := Function.update u.api 0 none } := by
    simp only [step, htx]
  refine ⟨_, _, Run.cons (Run.cons (Run.cons Run.nil habort) hread) hcommit, ?_, ?_, hworkers,
    hworld, hclock⟩
  · simp only [stepsMeet_cons, stepsMeet_nil, and_true]
    exact ⟨rfl, ⟨rfl, hop⟩, rfl⟩
  · simp only [hrow, hbase, hnew]
    exact flush_current s.row new

/-- An idle worker that runs acquires a job that is eligible, and is then alone with it. -/
theorem Alone.acquire (hexec : Executing cfg v s) (hrunning : (s.workers v).running = true)
    (hidle : (s.workers v).phase = .idle) (helig : eligible s.clock s.row = true) :
    ∃ t, step cfg s (.acquire v) = some t ∧
      Alone cfg v (Openable s.world (next_source cfg s.clock s.row) s.row) t := by
  have hstep : step cfg s (.acquire v) = some
      { s with
        row := acquired_row cfg s.clock v s.row,
        workers := Function.update s.workers v { s.workers v with phase := .acquired },
        owners := v :: s.owners } := by
    simp only [step, hidle, hrunning, helig, Bool.and_self, if_true]
  refine ⟨_, hstep, hexec.step hstep, ?_, fun _ => rfl, ?_⟩
  · simp only [Function.update_self]
    exact hrunning
  · simp only [Function.update_self]
    exact Openable.congr rfl rfl

/-- **From eligible to the end.** An eligible job, one worker restarted and left alone. The
restart is part of it, because a worker that runs may be at another job, or stopped. -/
theorem exists_execution (hexec : Executing cfg v s) (helig : eligible s.clock s.row = true) :
    ∃ tr t, Run (step cfg) s tr t ∧ StepsMeet (Reviving v) tr ∧
      (Openable s.world (next_source cfg s.clock s.row) s.row → t.row.status = .completed) ∧
      (¬ Openable s.world (next_source cfg s.clock s.row) s.row → t.row.status = .failed) := by
  have hcrash : step cfg s (.crash v) = some (s.set_worker v .gone) := rfl
  have hgone : ((s.set_worker v .gone).workers v) = .gone := by
    simp only [Sys.set_worker, Function.update_self]
  have hboot : step cfg (s.set_worker v .gone) (.boot v)
      = some ((s.set_worker v .gone).set_worker v .started) := by
    simp only [step, hgone]
    rfl
  have hstarted : ((s.set_worker v .gone).set_worker v .started).workers v = .started := by
    simp only [Sys.set_worker, Function.update_self]
  obtain ⟨u, hacquire, halone⟩ := Alone.acquire ((hexec.step hcrash).step hboot)
    (by rw [hstarted]; rfl) (by rw [hstarted]; rfl) helig
  obtain ⟨tr, t, hrun, htr, -, hdone, hfailed⟩ := halone.finishes
  refine ⟨_, t, Run.append (Run.cons (Run.cons (Run.cons Run.nil hcrash) hboot) hacquire) hrun,
    fun p hp => ?_, hdone, hfailed⟩
  rcases List.mem_append.mp hp with hp | hp
  · obtain ⟨input, ha⟩ := htr p hp
    rw [ha]
    rfl
  · simp only [List.mem_cons, List.not_mem_nil, or_false] at hp
    rcases hp with rfl | rfl | rfl <;> rfl

/-- A queued job is eligible as soon as its lease is over, if it has one. A lease on a queued
job is one of the odd states: a pause and a resume leave it there. -/
theorem eligible_of_queued {row : ReplayJob} (h : row.status = .queued) {now : Nat}
    (hnow : ∀ lease, row.lease_expires_at = some lease → lease < now) :
    eligible now row = true := by
  unfold eligible
  rw [h]
  cases hlease : row.lease_expires_at with
  | none => rfl
  | some lease => simpa using hnow lease hlease

/-- The columns that say where a job goes on from. -/
structure SameResume (row row' : ReplayJob) : Prop where
  source : row'.replay_source = row.replay_source
  last : row'.last_processed_id = row.last_processed_id
  checkpoint : row'.checkpoint = row.checkpoint

/-- A row goes on from where it goes on from. -/
theorem SameResume.refl (row : ReplayJob) : SameResume row row := ⟨rfl, rfl, rfl⟩

/-- Whether the checkpoint can be opened is decided by these columns, so the requests of the
operator do not change it. -/
theorem SameResume.openable_iff {row row' : ReplayJob} (h : SameResume row row') (world : World)
    (now : Nat) : Openable world (next_source cfg now row') row' ↔
      Openable world (next_source cfg now row) row := by
  rw [next_source, h.source]
  exact Openable.congr h.last h.checkpoint

/-- A job that is not terminal is queued by an operator: a pending one is started, a running one
is paused and resumed, a paused one is resumed. Of each of these the lease may still be there,
so time has to pass. -/
theorem exists_queued (cfg : Config) (v : Nat) (hstatus : s.row.status.is_terminal = false) :
    ∃ tr t, Run (step cfg) s tr t ∧ StepsMeet (Reviving v) tr ∧ t.row.status = .queued ∧
      SameResume s.row t.row ∧ t.world = s.world ∧ t.clock = s.clock := by
  cases hs : s.row.status with
  | pending =>
      have hstart : ApiOp.apply s.clock .start s.row = .ok { s.row with status := .queued } := by
        simp [ApiOp.apply, start_job, hs]
      obtain ⟨tr, t, hrun, htr, hrow, -, hworld, hclock⟩ := exists_request hstart (Or.inl rfl)
      exact ⟨tr, t, hrun, htr, by rw [hrow], by rw [hrow]; exact ⟨rfl, rfl, rfl⟩, hworld, hclock⟩
  | queued => exact ⟨[], s, Run.nil, stepsMeet_nil _, hs, SameResume.refl _, rfl, rfl⟩
  -- two requests; the lease of the running worker is cleared by the first
  | running =>
      have hpause : ApiOp.apply s.clock .pause s.row = .ok
          { s.row with status := .paused, worker_id := none, lease_expires_at := none } := by
        simp [ApiOp.apply, pause_job, hs]
      obtain ⟨tr, t, hrun, htr, hrow, -, hworld, hclock⟩ :=
        exists_request hpause (Or.inr (Or.inl rfl))
      have hresume : ApiOp.apply t.clock .resume t.row = .ok { t.row with status := .queued } := by
        simp [ApiOp.apply, resume_job, hrow]
      obtain ⟨tr', t', hrun', htr', hrow', -, hworld', hclock'⟩ :=
        exists_request hresume (Or.inr (Or.inr rfl))
      refine ⟨tr' ++ tr, t', Run.append hrun hrun', fun p hp => ?_, by rw [hrow'], ?_,
        hworld'.trans hworld, hclock'.trans hclock⟩
      · exact (List.mem_append.mp hp).elim (htr' p) (htr p)
      · rw [hrow', hrow]
        exact ⟨rfl, rfl, rfl⟩
  | paused =>
      have hresume : ApiOp.apply s.clock .resume s.row = .ok { s.row with status := .queued } := by
        simp [ApiOp.apply, resume_job, hs]
      obtain ⟨tr, t, hrun, htr, hrow, -, hworld, hclock⟩ :=
        exists_request hresume (Or.inr (Or.inr rfl))
      exact ⟨tr, t, hrun, htr, by rw [hrow], by rw [hrow]; exact ⟨rfl, rfl, rfl⟩, hworld, hclock⟩
  | completed | failed | cancelled => rw [hs] at hstatus; cases hstatus

/-- **No state is a dead end.** From every state that the system can reach with a job that is
not terminal, whatever its lease, its workers and the requests in flight, restarting one
worker and starting, or pausing and resuming, the job leads to its end. It completes if its
checkpoint can be opened at the source it goes on with, and fails otherwise. -/
theorem no_dead_end {speed_factor : Rat} {world : World} {clock : Nat} {tr₀ : List (Sys × Action)}
    (hsorted : world.Sorted)
    (hrun₀ : Run (step cfg) (Sys.initial speed_factor world clock) tr₀ s)
    (hstatus : s.row.status.is_terminal = false) (v : Nat) :
    ∃ tr t now, Run (step cfg) s tr t ∧ StepsMeet (Reviving v) tr ∧ s.clock ≤ now ∧
      (Openable s.world (next_source cfg now s.row) s.row → t.row.status = .completed) ∧
      (¬ Openable s.world (next_source cfg now s.row) s.row → t.row.status = .failed) := by
  obtain ⟨tr₁, u, hrun₁, htr₁, hqueued, hsame, hworld, hclock⟩ := exists_queued cfg v hstatus
  -- whatever lease the row still has expires
  let ms := u.row.lease_expires_at.getD 0 + 1
  have htick : step cfg u (.tick ms) = some { u with clock := u.clock + ms } := rfl
  have helig : eligible (u.clock + ms) u.row = true := by
    refine eligible_of_queued hqueued fun lease hlease => ?_
    simp only [ms, hlease, Option.getD_some]
    omega
  have hrun := Run.cons hrun₁ htick
  have hexec : Executing cfg v { u with clock := u.clock + ms } :=
    Run.invariant (C := fun _ _ => True) (fun _ _ _ h _ hs => h.step hs)
      (executing_of_run hsorted hrun₀ v) hrun fun _ _ => trivial
  obtain ⟨tr₂, t, hrun₂, htr₂, hdone, hfailed⟩ := exists_execution hexec helig
  dsimp only at hdone hfailed
  rw [hworld, hsame.openable_iff] at hdone hfailed
  refine ⟨_, t, u.clock + ms, Run.append hrun hrun₂, fun p hp => ?_, by omega, hdone, hfailed⟩
  rcases List.mem_append.mp hp with hp | hp
  · exact htr₂ p hp
  · rcases List.mem_cons.mp hp with rfl | hp
    · exact trivial
    · exact htr₁ p hp

/-- Worker `0` is shut down and about to checkpoint the job, which it has read queued; worker
`1` acquires the job, finds it paused by that checkpoint, and is about to checkpoint it too;
the job is resumed and its lease expires, and worker `0` acquires it again. The checkpoint
of worker `1` clears the lease and leaves the status. -/
def unleased_actions : List Action :=
  [.produce 0 ⟨15, sampleRecord "1"⟩, .api_read 0 .start, .api_commit 0, .boot 0, .boot 1,
    .acquire 0] ++ going 0 [{}, {}, {}, {}, {}, {}] ++
  [.stop 0, .api_read 0 .pause, .api_commit 0, .api_read 0 .resume, .api_commit 0] ++
  going 0 [{}, {}] ++ [.acquire 1] ++ going 0 [{}] ++ going 1 [{}, {}, {}, {}, {}, {}, {}, {}, {}] ++
  [.api_read 0 .resume, .api_commit 0, .tick 61, .boot 0, .acquire 0] ++ going 1 [{}]

/-- A job that is `RUNNING` without a lease, which no worker will ever acquire, is brought to
its end. -/
theorem no_dead_end_unleased :
    ∃ tr₀ s tr t, Run (step short_config) (Sys.initial 1 empty_world 0) tr₀ s ∧
      s.row.status = .running ∧ s.row.lease_expires_at = none ∧
      Run (step short_config) s tr t ∧ StepsMeet (Reviving 0) tr ∧ t.row.status = .completed := by
  obtain ⟨tr₀, s, hrun₀, hstatus, hlease, hsource, hlast, hmap⟩ :
      ∃ tr₀ s, Run (step short_config) (Sys.initial 1 empty_world 0) tr₀ s ∧
        s.row.status = .running ∧ s.row.lease_expires_at = none ∧
        s.row.replay_source = some .kafka ∧ s.row.last_processed_id = .empty ∧
        s.row.checkpoint = none :=
    exists_run_of_exec unleased_actions (by decide)
  obtain ⟨tr, t, now, hrun, htr, -, hdone, -⟩ :=
    no_dead_end empty_world_sorted hrun₀ (by rw [hstatus]; rfl) 0
  refine ⟨tr₀, s, tr, t, hrun₀, hstatus, hlease, hrun, htr, hdone ?_⟩
  simp only [Openable, next_source, hsource, Option.getD_some, checkpoint_argument, hlast, hmap]
  exact ⟨_, rfl⟩

end

end WalStream.Job

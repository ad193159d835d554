/-
Which events a job sends.

A source is asked for a window, and it compares the window with its own times: with the
milliseconds of the Redis ids, or with the timestamps of the Kafka messages. The commit time
and the table of a record travel inside the payload, where the worker does not look, and
`table_filter` is stored with the job and read by nobody. So what a completed job has sent of
all its generator could see is what the source had stamped with a time of the window.
-/
import WalStream.Job.Accounting

set_option autoImplicit false

namespace WalStream.Job

open Lib Source

/-! ## What is asked for, and what is sent -/

/-- The record is one a job for the window asks for: by its commit time, and by its table, where
`table_matches` is what the job's `table_filter` stands for. This is what the job was created
with, and is compared with what it sends. -/
def AskedFor (w : Window) (table_matches : String → Bool) (r : ChangeRecord) : Prop :=
  (w.start_ms : Int) ≤ r.commit_time ∧ r.commit_time ≤ w.end_ms ∧ table_matches r.table = true

instance (w : Window) (table_matches : String → Bool) (r : ChangeRecord) :
    Decidable (AskedFor w table_matches r) :=
  inferInstanceAs (Decidable (_ ∧ _ ∧ _))

/-- In the run some worker has called `ReplayEvent` with the event. -/
def SentIn (tr : List (Sys × Action)) (m : MessageId) : Prop :=
  ∃ p ∈ tr, ∃ v input job stream event attempt, p.2 = .go v input ∧
    (p.1.workers v).phase = .in_hand job stream event (.ready attempt) ∧ event.message_id = m

/-! ## Only the window is sent

What is sent has been yielded, and what is yielded is of the window as soon as the generator
starts in it. A generator starts where the row says, so the row comes into the invariant. -/

/-- What a worker holds points into the window. -/
def AimedPhase (w : Window) (world : World) : Phase → Prop
  | .writing base tx => (tx.body base).RecordsOnly (world.InWindow w) ∧
      ∀ stream event was_dup now, tx = .progress stream event was_dup now →
        stream.AfterStart w world
  | .streaming job stream => job.RecordsOnly (world.InWindow w) ∧ stream.AfterStart w world
  | .in_hand job stream event _ => job.RecordsOnly (world.InWindow w) ∧
      stream.AfterStart w world ∧ world.InWindow w event.message_id
  | .checkpointing job => job.RecordsOnly (world.InWindow w)
  | _ => True

/-- The invariant: besides what at-least-once delivery rests on, all that is recorded is of the
window, and so is all that the generators have still to yield. Both are needed together, as a
generator is opened on what is recorded. -/
structure Aimed (w : Window) (s : Sys) : Prop where
  safe : SafeSys w s
  row : s.row.RecordsOnly (s.world.InWindow w)
  workers : ∀ v, AimedPhase w s.world (s.workers v).phase

section

variable {w : Window} {world world' : World}

/-- A position of the window stays one while the logs grow. -/
theorem RecordsOnly.grow {job : ReplayJob} (h : job.RecordsOnly (world.InWindow w))
    (hg : world.Grows world') : job.RecordsOnly (world'.InWindow w) :=
  fun id hid => (h id hid).grow hg

/-- What a worker holds keeps its aim, if its generator does. -/
theorem AimedPhase.grow {phase : Phase} (h : AimedPhase w world phase) (hg : world.Grows world')
    (hafter : ∀ stream, phase.stream? = some stream → stream.AfterStart w world →
      stream.AfterStart w world') : AimedPhase w world' phase := by
  cases phase with
  | writing base tx =>
      refine ⟨RecordsOnly.grow h.1 hg, ?_⟩
      rintro stream event was_dup now rfl
      exact hafter stream rfl (h.2 stream event was_dup now rfl)
  | streaming job stream => exact ⟨RecordsOnly.grow h.1 hg, hafter stream rfl h.2⟩
  | in_hand job stream event stage =>
      exact ⟨RecordsOnly.grow h.1 hg, hafter stream rfl h.2.1, h.2.2.grow hg⟩
  | checkpointing job => exact RecordsOnly.grow h hg
  | _ => trivial

/-- A generator opened on columns of the window starts in the window. Without a checkpoint it
starts at `start_ms`, by its own seeks. -/
theorem afterStart_of_open {job : ReplayJob} {source : SourceName} {position : Nat → Nat}
    {stream : Stream} (h : job.RecordsOnly (world.InWindow w))
    (hopen : Stream.open source world position (checkpoint_argument source job) = .ok stream) :
    stream.AfterStart w world := by
  refine (Stream.open_bounded hopen (fun m hcp => ?_) fun offsets p o hcp hget => ?_).afterStart
  · rcases checkpoint_argument_cases hcp with ⟨id, hid, hlast⟩ | ⟨offsets, hid, _⟩
    · cases hid
      exact h m (Or.inl hlast)
    · cases hid
  · rcases checkpoint_argument_cases hcp with ⟨id, hid, _⟩ | ⟨offsets', hid, hjob⟩
    · cases hid
    · cases hid
      exact h _ (Or.inr ⟨offsets, p, o, hjob, hget, rfl⟩)

/-- **The next piece of a worker's code keeps the aim.** -/
theorem AimedPhase.go {cfg : Config} {now : Nat} {row : ReplayJob} {wk : Worker} {input : Input}
    {m : Move} {acked : List MessageId} (hsorted : world.Sorted)
    (hrow : row.RecordsOnly (world.InWindow cfg.window))
    (hsafe : SafePhase cfg.window world acked wk.phase)
    (h : AimedPhase cfg.window world wk.phase)
    (hm : wk.go cfg now row world input = some m) :
    AimedPhase cfg.window world m.worker.phase := by
  cases Worker.went hm with
  -- the first transaction opens the generator on what the row records, which is of the window
  | committed base tx hph =>
      rw [hph] at h
      cases tx with
      | setup source count =>
          simp only [Worker.after_commit]
          split
          · rename_i stream hopen
            exact ⟨h.1, afterStart_of_open h.1 hopen⟩
          · trivial
      | progress stream event was_dup now => exact ⟨h.1, h.2 _ _ _ _ rfl⟩
      | _ => trivial
  | streamed job stream stream' hph hs =>
      rw [hph] at h hsafe
      exact ⟨h.1, h.2.step_more hsorted hsafe.2.good hs⟩
  -- what is yielded is of the window; from here on the event in hand is
  | got_event job stream stream' event hph hs =>
      rw [hph] at h hsafe
      obtain ⟨hafter, hin⟩ := h.2.step_yield hsorted hsafe.2.good hs
      exact ⟨h.1, hafter, hin⟩
  | shut_down job stream event hph | saw_paused job stream event hph =>
      rw [hph] at h
      exact h.1
  | still_running job stream event hph | may_send job stream event hph
  | sent job stream event attempt hph | answered job stream event attempt hph
  | retried job stream event attempt hph | gave_up job stream event attempt hph =>
      rw [hph] at h
      exact h
  -- so the checkpoint it becomes is of the window too
  | records_event job stream event was_dup hph =>
      rw [hph] at h
      refine ⟨ReplayJob.RecordsOnly.progress hrow h.2.2, ?_⟩
      rintro _ _ _ _ ⟨⟩
      exact h.2.1
  | checkpoints job hph =>
      rw [hph] at h
      exact ⟨ReplayJob.RecordsOnly.checkpoint h hrow, fun _ _ _ _ h' => by cases h'⟩
  | set_up | records_failure | completes | fails =>
      exact ⟨hrow.congr rfl rfl, fun _ _ _ _ h' => by cases h'⟩
  | read_job | stream_ended | stream_raised | saw_cancelled => trivial

end

section

variable {cfg : Config} {s t : Sys} {a : Action}

/-- A generator keeps its aim under the appends of a step. -/
theorem afterStart_of_step (hold : NoLateOld cfg.window s a) (hs : step cfg s a = some t) {v : Nat}
    {stream : Stream} (hstream : (s.workers v).phase.stream? = some stream)
    (hgood : stream.Good cfg.window s.world) (h : stream.AfterStart cfg.window s.world) :
    stream.AfterStart cfg.window t.world := by
  cases step_took hs with
  | xadd e hnew => exact h.xadd
  | produce p message hp hm => exact h.produce hgood hp fun hlt => hold hlt v stream hstream
  | _ => exact h

/-- **One step.** -/
theorem Aimed.step (h : Aimed cfg.window s) (hgap : NoGap cfg.window s a)
    (hold : NoLateOld cfg.window s a) (hs : Job.step cfg s a = some t) : Aimed cfg.window t := by
  obtain ⟨hg, -⟩ := world_grows hs
  have hkeep : ∀ v, AimedPhase cfg.window t.world (s.workers v).phase := fun v =>
    (h.workers v).grow hg fun stream hstream hafter =>
      afterStart_of_step hold hs hstream ((h.safe.workers v).good hstream) hafter
  refine ⟨h.safe.step hgap hs, ?_, fun v => ?_⟩
  · refine ReplayJob.RecordsOnly.step (RecordsOnly.grow h.row hg) (fun v base tx hw => ?_) hs
    have hv := hkeep v
    rw [hw] at hv
    exact hv.1
  · refine phase_holds (Q := AimedPhase cfg.window t.world) trivial trivial (fun _ => trivial)
      hs (hkeep v) ?_
    rintro input m - hm rfl
    exact AimedPhase.go h.safe.sorted h.row (h.safe.workers v) (h.workers v) hm

/-- A job that has just been created records nothing. -/
theorem Aimed.initial {speed_factor : Rat} {world : World} {clock : Nat} (hsorted : world.Sorted)
    (w : Window) : Aimed w (Sys.initial speed_factor world clock) := by
  refine ⟨(Accounts.initial hsorted w).safe, fun id hid => ?_, fun v => trivial⟩
  rcases hid with hid | ⟨offsets, p, o, hcp, _, _⟩
  · cases hid
  · cases hcp

/-! ## What a run has sent

The invariant on acknowledgements, turned into one on calls: an event that is acknowledged has
been sent in this run, as a call is where an acknowledgement comes from. -/

/-- The trace accounts for the acknowledgements, and for the calls that are waiting for one; and
all that it sent is of the window. So what is known of acknowledged events, by the at-least-once
delivery, becomes known of the calls that were made. -/
structure SentBefore (w : Window) (tr : List (Sys × Action)) (s : Sys) : Prop where
  acked : ∀ m ∈ s.acked, SentIn tr m
  awaiting : ∀ v job stream event attempt,
    (s.workers v).phase = .in_hand job stream event (.awaiting attempt) →
      SentIn tr event.message_id
  inWindow : ∀ m, SentIn tr m → s.world.InWindow w m

/-- What was sent in a run was sent in a longer one. -/
theorem SentIn.cons {tr : List (Sys × Action)} {m : MessageId} (h : SentIn tr m)
    (p : Sys × Action) : SentIn (p :: tr) m := by
  obtain ⟨q, hq, hsent⟩ := h
  exact ⟨q, List.mem_cons_of_mem _ hq, hsent⟩

/-- An event is awaited after a step if it was before, or the step has sent it. There is no
other way into that stage. -/
theorem awaiting_cases (hs : Job.step cfg s a = some t) {v : Nat} {job : ReplayJob}
    {stream : Stream} {event : ReplayEvent} {attempt : Nat}
    (hph : (t.workers v).phase = .in_hand job stream event (.awaiting attempt)) :
    (s.workers v).phase = .in_hand job stream event (.awaiting attempt) ∨
      ∃ input, a = .go v input ∧
        (s.workers v).phase = .in_hand job stream event (.ready attempt) := by
  refine phase_holds (Q := fun phase => phase = .in_hand job stream event (.awaiting attempt) → _)
    ?_ ?_ ?_ hs Or.inl ?_ hph
  · rintro ⟨⟩
  · rintro ⟨⟩
  · rintro error ⟨⟩
  · rintro input m ha hm - hph
    refine Or.inr ⟨input, ha, ?_⟩
    cases Worker.went hm with
    | sent job' stream' event' attempt' hready =>
        simp only [Worker.to_phase, Phase.in_hand.injEq, Stage.awaiting.injEq] at hph
        obtain ⟨rfl, rfl, rfl, rfl⟩ := hph
        exact hready
    | committed base tx =>
        cases tx with
        | setup source count =>
            simp only [Worker.after_commit] at hph
            split at hph <;> cases hph
        | _ => cases hph
    | _ => cases hph

/-- An event is acknowledged after a step if it was before, or if it was awaited. -/
theorem acked_cases (hs : Job.step cfg s a = some t) {m : MessageId} (hm : m ∈ t.acked) :
    m ∈ s.acked ∨ ∃ v job stream event attempt,
      (s.workers v).phase = .in_hand job stream event (.awaiting attempt) ∧
        event.message_id = m := by
  cases step_took hs with
  | go v input move hgo =>
      rcases List.mem_append.mp hm with hm | hm
      · exact Or.inl hm
      · cases Worker.went hgo with
        | answered job stream event attempt hph hanswer =>
            obtain rfl : m = event.message_id := by simpa using hm
            exact Or.inr ⟨v, job, stream, event, attempt, hph, rfl⟩
        | _ => cases hm
  | _ => exact Or.inl hm

/-- **One step.** The trace grows by the call that the step makes, if it makes one. -/
theorem SentBefore.step {tr : List (Sys × Action)} (h : SentBefore cfg.window tr s)
    (haimed : Aimed cfg.window s) (hs : Job.step cfg s a = some t) :
    SentBefore cfg.window ((s, a) :: tr) t := by
  refine ⟨fun m hm => ?_, fun v job stream event attempt hph => ?_, fun m hm => ?_⟩
  · rcases acked_cases hs hm with hm | ⟨v, job, stream, event, attempt, hph, rfl⟩
    · exact (h.acked m hm).cons _
    · exact (h.awaiting v job stream event attempt hph).cons _
  · rcases awaiting_cases hs hph with hph | ⟨input, rfl, hph⟩
    · exact (h.awaiting v job stream event attempt hph).cons _
    · exact ⟨_, List.mem_cons_self .., v, input, job, stream, event, attempt, rfl, hph, rfl⟩
  · obtain ⟨p, hp, v, input, job, stream, event, attempt, ha, hph, rfl⟩ := hm
    rcases List.mem_cons.mp hp with rfl | hp
    · -- sent by this step: the worker had it in hand
      have hv := haimed.workers v
      rw [hph] at hv
      exact hv.2.2.grow (world_grows hs).1
    · exact (h.inWindow _ ⟨p, hp, v, input, job, stream, event, attempt, ha, hph, rfl⟩).grow
        (world_grows hs).1

/-- **Runs.** -/
theorem sent_before_of_run {speed_factor : Rat} {world : World} {clock : Nat}
    {tr : List (Sys × Action)} (hsorted : world.Sorted)
    (hrun : Run (Job.step cfg) (Sys.initial speed_factor world clock) tr s)
    (hgap : StepsMeet (NoGap cfg.window) tr) (hold : StepsMeet (NoLateOld cfg.window) tr) :
    Aimed cfg.window s ∧ SentBefore cfg.window tr s := by
  induction hrun with
  | nil =>
      refine ⟨.initial hsorted _, fun m hm => ?_, fun v job stream event attempt hph => ?_,
        fun m hm => ?_⟩
      · cases hm
      · cases hph
      · obtain ⟨p, hp, -⟩ := hm
        cases hp
  | cons _ hs ih =>
      rw [stepsMeet_cons] at hgap hold
      obtain ⟨haimed, hsent⟩ := ih hgap.2 hold.2
      exact ⟨haimed.step hgap.1 hold.1 hs, hsent.step haimed hs⟩

/-- **Selection.** All that a job ever sends is of the window by the source's own times. And
whenever a worker is about to commit `COMPLETED`, of the records its generator could see (up
to the last `XRANGE`, below the high-water snapshot) those of the window were sent, and no
others. -/
theorem completed_job_sends_window {speed_factor : Rat} {world : World} {clock : Nat}
    {tr : List (Sys × Action)} (hsorted : world.Sorted)
    (hrun : Run (Job.step cfg) (Sys.initial speed_factor world clock) tr s)
    (hgap : StepsMeet (NoGap cfg.window) tr) (hold : StepsMeet (NoLateOld cfg.window) tr) :
    (∀ m, SentIn tr m → s.world.InWindow cfg.window m) ∧
    ∀ v base stream now, (s.workers v).phase = .writing base (.complete stream now) →
      ∀ m, stream.Visible s.world m → (SentIn tr m ↔ s.world.InWindow cfg.window m) := by
  obtain ⟨haimed, hsent⟩ := sent_before_of_run hsorted hrun hgap hold
  refine ⟨hsent.inWindow, fun v base stream now hcommit m hvis => ?_⟩
  refine ⟨hsent.inWindow m, fun hin => hsent.acked m ?_⟩
  exact haimed.safe.completesAcked (.go v {}) base stream now hcommit m hin hvis

/-! ### Partitions of a few messages -/

/-- The high-water mark of partition `p` in the generator of a worker that is about to commit
`COMPLETED`. -/
def Phase.completes_at (p : Nat) : Phase → Option Nat
  | .writing _ (.complete (.kafka stream) _) => some (stream.snapshot p)
  | _ => none

/-- What the number says of the phase: the generator has returned, with that snapshot. -/
theorem Phase.completes_at_spec {phase : Phase} {p n : Nat} (h : phase.completes_at p = some n) :
    ∃ base stream now, phase = .writing base (.complete (.kafka stream) now) ∧
      stream.snapshot p = n := by
  unfold Phase.completes_at at h
  split at h
  · rename_i base stream now
    exact ⟨base, stream, now, rfl, Option.some.inj h⟩
  · cases h

/-- A message from before the window and one of it. -/
def two_messages : Topic := [[⟨5, sampleRecord "1"⟩, ⟨15, sampleRecord "2"⟩]]

/-- The second message is of the window and is sent; the first one is not. -/
theorem completed_job_sends_window_second :
    ∃ tr s, Run (Job.step short_config) (Sys.initial 1 ⟨[], two_messages⟩ 0) tr s ∧
      SentIn tr (.kafka 0 1) ∧ ¬ SentIn tr (.kafka 0 0) := by
  have hrun : ∃ tr s, Run (Job.step short_config) (Sys.initial 1 ⟨[], two_messages⟩ 0) tr s ∧
      StepsMeet (fun s a => NoGap short_config.window s a ∧ NoLateOld short_config.window s a) tr ∧
      s.world.kafka = two_messages ∧ (s.workers 0).phase.completes_at 0 = some 2 :=
    exists_run_meeting_of_exec
      [.api_read 0 .start, .api_commit 0, .boot 0, .acquire 0,
        .go 0 {}, .go 0 {}, .go 0 {}, .go 0 {}, .go 0 {}, .go 0 {}, .go 0 {}, .go 0 {}, .go 0 {},
        .go 0 { success := true }, .go 0 {}, .go 0 {}, .go 0 {}, .go 0 {}]
      (.of_forall (by simp [NoGap, NoLateOld])) (by decide)
  obtain ⟨tr, s, hrun, hC, hkafka, hcomplete⟩ := hrun
  obtain ⟨base, stream, now, hcommit, hsnapshot⟩ := Phase.completes_at_spec hcomplete
  have hsorted : World.Sorted ⟨[], two_messages⟩ :=
    ⟨List.Pairwise.nil, kafkaSorted_of_logs (by decide)⟩
  obtain ⟨honly, hsent⟩ := completed_job_sends_window hsorted hrun (fun p hp => (hC p hp).1)
    (fun p hp => (hC p hp).2)
  refine ⟨tr, s, hrun, ?_, fun hfirst => ?_⟩
  · refine (hsent 0 base _ now hcommit (.kafka 0 1) ?_).mpr ?_
    · simp only [Stream.Visible, hsnapshot]
      decide
    · exact ⟨⟨15, sampleRecord "2"⟩, by rw [hkafka]; rfl, by decide⟩
  · obtain ⟨message, hmessage, hw⟩ := honly _ hfirst
    rw [hkafka] at hmessage
    cases hmessage
    exact absurd hw (by decide)

/-- Three messages for the window from 10 to 20: committed before it and published within it;
of another table; and committed within it but published after it. -/
def delayed_topic : Topic :=
  [[⟨15, { sampleRecord "1" with commit_time := 5 }⟩,
    ⟨16, { sampleRecord "2" with commit_time := 16, table := "public.u" }⟩,
    ⟨25, { sampleRecord "3" with commit_time := 18 }⟩]]

/-- A completed job with the filter `public.t` has sent the first two and not the third. -/
theorem completed_job_sends_delayed :
    ∃ tr s, Run (Job.step short_config) (Sys.initial 1 ⟨[], delayed_topic⟩ 0) tr s ∧
      s.row.status = .completed ∧ s.world.kafka = delayed_topic ∧
      SentIn tr (.kafka 0 0) ∧
        ¬ AskedFor ⟨10, 20⟩ (fun _ => true) { sampleRecord "1" with commit_time := 5 } ∧
      SentIn tr (.kafka 0 1) ∧
        ¬ AskedFor ⟨10, 20⟩ (fun table => table == "public.t")
          { sampleRecord "2" with commit_time := 16, table := "public.u" } ∧
      ¬ SentIn tr (.kafka 0 2) ∧
        AskedFor ⟨10, 20⟩ (fun table => table == "public.t")
          { sampleRecord "3" with commit_time := 18 } := by
  have hrun : ∃ tr s, Run (Job.step short_config) (Sys.initial 1 ⟨[], delayed_topic⟩ 0) tr s ∧
      StepsMeet (fun s a => NoGap short_config.window s a ∧ NoLateOld short_config.window s a) tr ∧
      s.row.status = .completed ∧ s.world.kafka = delayed_topic ∧
      s.acked = [.kafka 0 0, .kafka 0 1] :=
    exists_run_meeting_of_exec
      [.api_read 0 .start, .api_commit 0, .boot 0, .acquire 0,
        .go 0 {}, .go 0 {}, .go 0 {}, .go 0 {}, .go 0 {}, .go 0 {}, .go 0 {}, .go 0 {}, .go 0 {},
        .go 0 { success := true }, .go 0 {}, .go 0 {}, .go 0 {}, .go 0 {}, .go 0 {}, .go 0 {},
        .go 0 {}, .go 0 { success := true }, .go 0 {}, .go 0 {}, .go 0 {}, .go 0 {}, .go 0 {},
        .go 0 {}]
      (.of_forall (by simp [NoGap, NoLateOld])) (by decide)
  obtain ⟨tr, s, hrun, hC, hstatus, hkafka, hacked⟩ := hrun
  have hsorted : World.Sorted ⟨[], delayed_topic⟩ :=
    ⟨List.Pairwise.nil, kafkaSorted_of_logs (by decide)⟩
  obtain ⟨-, hsent⟩ := sent_before_of_run hsorted hrun (fun p hp => (hC p hp).1)
    (fun p hp => (hC p hp).2)
  refine ⟨tr, s, hrun, hstatus, hkafka, hsent.acked _ (by rw [hacked]; simp), by decide,
    hsent.acked _ (by rw [hacked]; simp), by decide, fun hthird => ?_, by decide⟩
  obtain ⟨message, hmessage, hw⟩ := hsent.inWindow _ hthird
  rw [hkafka] at hmessage
  cases hmessage
  exact absurd hw (by decide)

end

end WalStream.Job

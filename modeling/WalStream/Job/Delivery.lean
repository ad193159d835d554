/-
At-least-once delivery.

Every position that is ever written to the checkpoint columns is the id of an event whose
acknowledgement its worker has received, after those of everything before it. This is true
of the committed row, of every copy of it a worker or a transaction holds, and therefore of
every mixture of columns that overlapping commits leave: `SafeColumns`. What a generator has
passed is acknowledged too, since it starts from such a checkpoint and waits for the worker
at every event: `SafePhase`. No lease, no order of the commits and no single owner is needed
for it.

The one thing it rests on is that a generator passes nothing without yielding it, and there
the Kafka source has a gap: a partition without an offset at or after `start_ms` is sought
to its end in a later call, past whatever was appended in between.
-/
import WalStream.Job.System

set_option autoImplicit false

namespace WalStream.Job

open Lib Source

/-! ## Safe positions

What may be written into the checkpoint columns. Safety is not lost by mixing two rows, by
growth of the logs or by further acknowledgements, so a copy of a row that was read long ago is
safe still. -/

/-- A position of the checkpoint columns: the message id of `last_processed_id`, or the
offset the map has for a partition. -/
def ReplayJob.Recorded (job : ReplayJob) (id : MessageId) : Prop :=
  job.last_processed_id = .id id ∨
    ∃ offsets p o, job.checkpoint = some offsets ∧ offsets.get? p = some o ∧ id = .kafka p o

/-- Every position of the checkpoint columns satisfies `P`. -/
def ReplayJob.RecordsOnly (P : MessageId → Prop) (job : ReplayJob) : Prop :=
  ∀ id, job.Recorded id → P id

/-- `_update_checkpoint` records the event and nothing else. -/
theorem recorded_update_checkpoint {job : ReplayJob} {event : MessageId} {source : SourceName}
    {id : MessageId} (h : (update_checkpoint job event source).Recorded id) :
    id = event ∨ job.Recorded id := by
  rcases h with hlast | ⟨offsets, p, o, hcp, hget, rfl⟩
  · simp only [update_checkpoint, LastProcessedId.id.injEq] at hlast
    exact Or.inl hlast.symm
  · simp only [update_checkpoint] at hcp
    split at hcp
    · rename_i q c
      simp only [Option.some.injEq] at hcp
      subst hcp
      rw [Dict.get?_set] at hget
      split at hget
      · rename_i hpq
        cases hget
        exact Or.inl (by rw [hpq])
      · refine Or.inr (Or.inr ⟨job.checkpoint.getD Dict.empty, p, o, ?_, hget, rfl⟩)
        cases hjob : job.checkpoint with
        | some offsets => rfl
        | none => simp [hjob] at hget
    · exact Or.inr (Or.inr ⟨offsets, p, o, hcp, hget, rfl⟩)

namespace ReplayJob.RecordsOnly

variable {P : MessageId → Prop} {job row : ReplayJob}

/-- Only the two columns count. -/
theorem congr {job' : ReplayJob} (h : job.RecordsOnly P)
    (hlast : job'.last_processed_id = job.last_processed_id)
    (hcp : job'.checkpoint = job.checkpoint) : job'.RecordsOnly P := by
  intro id hid
  refine h id ?_
  unfold ReplayJob.Recorded at hid ⊢
  rwa [hlast, hcp] at hid

/-- Each column of a committed row is one of the row before or of the transaction's
object. -/
theorem flush {base new : ReplayJob} (hnew : new.RecordsOnly P) (hrow : row.RecordsOnly P) :
    (flush base new row).RecordsOnly P := by
  intro id hid
  rcases hid with hlast | ⟨offsets, p, o, hcp, hget, hid⟩
  · rcases written_cases base.last_processed_id new.last_processed_id row.last_processed_id
      with hw | hw
    · exact hnew id (Or.inl (hw.symm.trans hlast))
    · exact hrow id (Or.inl (hw.symm.trans hlast))
  · rcases written_cases base.checkpoint new.checkpoint row.checkpoint with hw | hw
    · exact hnew id (Or.inr ⟨offsets, p, o, hw.symm.trans hcp, hget, hid⟩)
    · exact hrow id (Or.inr ⟨offsets, p, o, hw.symm.trans hcp, hget, hid⟩)

/-- An API operation leaves both columns to whoever writes them. -/
theorem flush_api {base new : ReplayJob} (hchange : ApiChange base new)
    (hrow : row.RecordsOnly P) : (Job.flush base new row).RecordsOnly P := by
  refine hrow.congr ?_ ?_
  · simp only [Job.flush, hchange.last_processed_id, written_self]
  · simp only [Job.flush, hchange.checkpoint, written_self]

/-- `_checkpoint_job` writes the position of the worker's copy of the job back. -/
theorem checkpoint {now : Nat} (hjob : job.RecordsOnly P) (hrow : row.RecordsOnly P) :
    ((WorkerTx.checkpoint job.last_processed_id.orEmpty now).body row).RecordsOnly P := by
  intro id hid
  rcases hid with hlast | hid
  · refine hjob id (Or.inl ?_)
    cases hl : job.last_processed_id with
    | null => rw [hl] at hlast; cases hlast
    | empty => rw [hl] at hlast; cases hlast
    | id m => rw [hl] at hlast; exact hlast
  · exact hrow id (Or.inr hid)

/-- The update after an event records the event. -/
theorem progress {stream : Stream} {event : ReplayEvent} {was_dup : Bool} {now : Nat}
    (hrow : row.RecordsOnly P) (hevent : P event.message_id) :
    ((WorkerTx.progress stream event was_dup now).body row).RecordsOnly P := by
  intro id hid
  have hcounted : ∀ job : ReplayJob, job.last_processed_id = row.last_processed_id →
      job.checkpoint = row.checkpoint →
      (update_checkpoint job event.message_id stream.source).Recorded id → P id := by
    intro job hlast hcp hid
    rcases recorded_update_checkpoint hid with rfl | hid
    · exact hevent
    · exact hrow.congr hlast hcp id hid
  cases was_dup with
  | true =>
      exact hcounted { row with events_skipped_dedup := row.events_skipped_dedup + 1 } rfl rfl hid
  | false =>
      exact hcounted { row with events_processed := row.events_processed + 1 } rfl rfl hid

end ReplayJob.RecordsOnly

/-- The position lies within the log, and every event of the window up to it is
acknowledged. -/
structure SafeUpTo (w : Window) (world : World) (acked : List MessageId) (id : MessageId) :
    Prop where
  reached : world.Reached id
  acked : ∀ m, world.InWindow w m → AtOrBefore m id → m ∈ acked

/-- The positions of the checkpoint columns are safe. -/
def SafeColumns (w : Window) (world : World) (acked : List MessageId) (job : ReplayJob) : Prop :=
  ∀ id, job.Recorded id → SafeUpTo w world acked id

section

variable {w : Window} {world world' : World} {acked acked' : List MessageId}

/-- Safety survives growth of the logs and further acknowledgements: what is appended lies
beyond the position. -/
theorem SafeUpTo.grow {id : MessageId} (h : SafeUpTo w world acked id)
    (hg : world.Grows world') (hsub : acked ⊆ acked') : SafeUpTo w world' acked' id where
  reached := h.reached.grow hg
  acked m hm hle := hsub (h.acked m (hg.fresh hm (h.reached.of_atOrBefore hle)) hle)

/-- Every position that was recorded stays safe, so the copies of the row that workers and
transactions hold need not be refreshed. -/
theorem SafeColumns.grow {job : ReplayJob} (h : SafeColumns w world acked job)
    (hg : world.Grows world') (hsub : acked ⊆ acked') : SafeColumns w world' acked' job :=
  fun id hid => (h id hid).grow hg hsub

/-- Safety is a matter of the two columns. -/
theorem SafeColumns.congr {job job' : ReplayJob} (h : SafeColumns w world acked job)
    (hlast : job'.last_processed_id = job.last_processed_id)
    (hcp : job'.checkpoint = job.checkpoint) : SafeColumns w world acked job' :=
  ReplayJob.RecordsOnly.congr h hlast hcp

/-- **Mixtures are safe.** -/
theorem SafeColumns.flush {base new row : ReplayJob} (hnew : SafeColumns w world acked new)
    (hrow : SafeColumns w world acked row) : SafeColumns w world acked (flush base new row) :=
  ReplayJob.RecordsOnly.flush hnew hrow

/-- What the `checkpoint` argument of `stream_events` covers lies at or before a recorded
position. -/
theorem exists_recorded_of_covers {job : ReplayJob} {source : SourceName} {cp : Checkpoint}
    {m : MessageId} (h : checkpoint_argument source job = some cp) (hcov : cp.Covers m) :
    ∃ id, job.Recorded id ∧ AtOrBefore m id := by
  rcases checkpoint_argument_cases h with ⟨id, rfl, hlast⟩ | ⟨offsets, rfl, hjob⟩
  · exact ⟨id, Or.inl hlast, hcov⟩
  · cases m with
    | redis id => exact hcov.elim
    | kafka p o =>
        obtain ⟨c, hc, hoc⟩ := hcov
        exact ⟨.kafka p c, Or.inr ⟨offsets, p, c, hjob, hc, rfl⟩, atOrBefore_kafka.mpr ⟨rfl, hoc⟩⟩

end

/-! ## Safe generators

A generator opened on safe columns has passed only what is acknowledged. With every event it
yields it is ahead by one, and it is not asked for more before that one is acknowledged. -/

/-- What the generator has passed of the window is acknowledged. -/
structure SafeStream (w : Window) (world : World) (acked : List MessageId) (stream : Stream) :
    Prop where
  good : stream.Good w world
  acked : ∀ m, world.InWindow w m → stream.Passed m → m ∈ acked

/-- The generator yielded `event`: everything before it is passed, and what it has passed of
the window is acknowledged, the event itself perhaps excepted. -/
structure SafeHand (w : Window) (world : World) (acked : List MessageId) (stream : Stream)
    (event : ReplayEvent) : Prop where
  good : stream.Good w world
  reached : world.Reached event.message_id
  passed : ∀ m, AtOrBefore m event.message_id → stream.Passed m
  acked : ∀ m, world.InWindow w m → stream.Passed m → m = event.message_id ∨ m ∈ acked

/-- The generator returned, and what it had seen of the window is acknowledged. -/
structure SafeEnd (w : Window) (world : World) (acked : List MessageId) (stream : Stream) :
    Prop where
  seen : stream.Seen world
  acked : ∀ m, world.InWindow w m → stream.Visible world m → m ∈ acked

section

variable {w : Window} {world world' : World} {acked acked' : List MessageId} {stream : Stream}

/-- A generator is not disturbed by what happens in the sources, as long as its own invariant
survives it: what it has passed lies behind it. -/
theorem SafeStream.grow (h : SafeStream w world acked stream) (hg : world.Grows world')
    (hsub : acked ⊆ acked') (hgood : stream.Good w world') : SafeStream w world' acked' stream where
  good := hgood
  acked m hm hp := hsub (h.acked m (hg.fresh hm (h.good.reached hp)) hp)

/-- Nor is an event in hand, -/
theorem SafeHand.grow {event : ReplayEvent} (h : SafeHand w world acked stream event)
    (hg : world.Grows world') (hsub : acked ⊆ acked') (hgood : stream.Good w world') :
    SafeHand w world' acked' stream event where
  good := hgood
  reached := h.reached.grow hg
  passed := h.passed
  acked m hm hp := (h.acked m (hg.fresh hm (h.good.reached hp)) hp).imp id fun hm => hsub hm

/-- nor is what a generator had seen when it returned. -/
theorem SafeEnd.grow (h : SafeEnd w world acked stream) (hg : world.Grows world')
    (hsub : acked ⊆ acked') : SafeEnd w world' acked' stream where
  seen := h.seen.grow hg
  acked m hm hvis := by
    have hold := h.seen.visible_of_grow hg hvis
    exact hsub (h.acked m (hg.fresh hm (h.seen.reached hold)) hold)

/-- A generator opened on safe columns is safe. -/
theorem SafeStream.of_open {job : ReplayJob} {source : SourceName} {position : Nat → Nat}
    (h : SafeColumns w world acked job)
    (hopen : Stream.open source world position (checkpoint_argument source job) = .ok stream) :
    SafeStream w world acked stream where
  good := by
    refine Stream.open_good hopen fun cp hcp m hcov => ?_
    obtain ⟨id, hid, hle⟩ := exists_recorded_of_covers hcp hcov
    exact (h id hid).reached.of_atOrBefore hle
  acked m hm hp := by
    obtain ⟨-, cp, hcp, hcov⟩ := (Stream.open_passed hopen m).mp hp
    obtain ⟨id, hid, hle⟩ := exists_recorded_of_covers hcp hcov
    exact (h id hid).acked m hm hle

/-- A step without a `yield` passes nothing of the window, so there is nothing new to be
acknowledged. -/
theorem SafeStream.more {stream' : Stream} {choice : Nat} (h : SafeStream w world acked stream)
    (hsorted : world.Sorted) (hs : stream.step w world choice = .more stream') :
    SafeStream w world acked stream' := by
  obtain ⟨hgood, hpassed⟩ := h.good.step_more hsorted hs
  exact ⟨hgood, fun m hm hp => h.acked m hm ((hpassed m hm).mp hp)⟩

/-- With a `yield` one event is passed that is not acknowledged yet. Everything before it is,
because the generator was safe before the step. -/
theorem SafeStream.yield {stream' : Stream} {choice : Nat} {event : ReplayEvent}
    (h : SafeStream w world acked stream) (hsorted : world.Sorted)
    (hs : stream.step w world choice = .yield event stream') :
    SafeHand w world acked stream' event := by
  obtain ⟨hgood, hreached, _, hbefore, hpassed⟩ := h.good.step_yield hsorted hs
  exact ⟨hgood, hreached, hbefore,
    fun m hm hp => ((hpassed m hm).mp hp).symm.imp id (h.acked m hm)⟩

/-- A generator that returns has passed all it could see, and the worker waited for the
acknowledgement of every event of it. -/
theorem SafeStream.done {stream' : Stream} {choice : Nat} (h : SafeStream w world acked stream)
    (hsorted : world.Sorted) (hs : stream.step w world choice = .done stream') :
    SafeEnd w world acked stream' where
  seen := h.good.seen_of_done hs
  acked m hm hvis := h.acked m hm (h.good.step_done hsorted hs hm hvis)

/-- Once the event is acknowledged, the generator is safe to go on. -/
theorem SafeHand.resume {event : ReplayEvent} (h : SafeHand w world acked stream event)
    (hacked : event.message_id ∈ acked) : SafeStream w world acked stream where
  good := h.good
  acked m hm hp := by
    rcases h.acked m hm hp with rfl | hm
    · exact hacked
    · exact hm

/-- And its id is a safe position. -/
theorem SafeHand.safeUpTo {event : ReplayEvent} (h : SafeHand w world acked stream event)
    (hacked : event.message_id ∈ acked) : SafeUpTo w world acked event.message_id where
  reached := h.reached
  acked m hm hle := (h.resume hacked).acked m hm (h.passed m hle)

end

/-! ## Safe workers

Phase by phase, what a worker has in its variables. Other workers cannot break it, since nothing
in it depends on the row of the moment. -/

/-- The generator of a worker, as long as it may go on. -/
def Phase.stream? : Phase → Option Stream
  | .writing _ (.progress stream _ _ _) => some stream
  | .streaming _ stream => some stream
  | .in_hand _ stream _ _ => some stream
  | _ => none

/-- What a transaction in flight promises beside the columns it writes. -/
def SafeTx (w : Window) (world : World) (acked : List MessageId) : WorkerTx → Prop
  | .progress stream _ _ _ => SafeStream w world acked stream
  | .complete stream _ => SafeEnd w world acked stream
  | _ => True

/-- What a worker holds is safe. -/
def SafePhase (w : Window) (world : World) (acked : List MessageId) : Phase → Prop
  | .writing base tx => SafeColumns w world acked (tx.body base) ∧ SafeTx w world acked tx
  | .streaming job stream => SafeColumns w world acked job ∧ SafeStream w world acked stream
  | .in_hand job stream event stage =>
      SafeColumns w world acked job ∧ SafeHand w world acked stream event ∧
        ∀ was_dup, stage = .acked was_dup → event.message_id ∈ acked
  | .checkpointing job => SafeColumns w world acked job
  | .completing stream => SafeEnd w world acked stream
  | _ => True

section

variable {w : Window} {world world' : World} {acked acked' : List MessageId}

/-- A worker's phase under the steps of the others. The hypothesis on generators is what the gap
of the Kafka source breaks; it is met by every other step. -/
theorem SafePhase.grow {phase : Phase} (h : SafePhase w world acked phase)
    (hg : world.Grows world') (hsub : acked ⊆ acked')
    (hgood : ∀ stream, phase.stream? = some stream → stream.Good w world →
      stream.Good w world') : SafePhase w world' acked' phase := by
  cases phase with
  | idle => trivial
  | acquired => trivial
  | fetched job => trivial
  | writing base tx =>
      refine ⟨h.1.grow hg hsub, ?_⟩
      cases tx with
      | progress stream event was_dup now =>
          exact SafeStream.grow h.2 hg hsub (hgood stream rfl (SafeStream.good h.2))
      | complete stream now => exact SafeEnd.grow h.2 hg hsub
      | _ => trivial
  | streaming job stream =>
      exact ⟨h.1.grow hg hsub, h.2.grow hg hsub (hgood stream rfl h.2.good)⟩
  | in_hand job stream event stage =>
      exact ⟨h.1.grow hg hsub, h.2.1.grow hg hsub (hgood stream rfl h.2.1.good),
        fun was_dup hstage => hsub (h.2.2 was_dup hstage)⟩
  | checkpointing job => exact SafeColumns.grow h hg hsub
  | completing stream => exact SafeEnd.grow h hg hsub
  | failing error => trivial

/-- What a generator has just opened on a safe job is safe, and so is all else a commit
leaves the worker with. -/
theorem SafeTx.after_commit {wk : Worker} {tx : WorkerTx} {job : ReplayJob}
    {position : Nat → Nat} (hjob : SafeColumns w world acked job)
    (htx : SafeTx w world acked tx) :
    SafePhase w world acked (wk.after_commit tx job world position).phase := by
  cases tx with
  | setup source count =>
      simp only [Worker.after_commit]
      split
      · rename_i stream hopen
        exact ⟨hjob, SafeStream.of_open hjob hopen⟩
      · trivial
  | progress stream event was_dup now => exact ⟨hjob, htx⟩
  | _ => trivial

/-- In the stages without an answer the event is merely kept. -/
theorem SafePhase.keep {job : ReplayJob} {stream : Stream} {event : ReplayEvent}
    {stage stage' : Stage} (h : SafePhase w world acked (.in_hand job stream event stage))
    (hne : ∀ was_dup, stage' ≠ .acked was_dup) :
    SafePhase w world acked (.in_hand job stream event stage') :=
  ⟨h.1, h.2.1, fun was_dup hstage => absurd hstage (hne was_dup)⟩

/-- **The next piece of a worker's code keeps it safe.** -/
theorem SafePhase.go {cfg : Config} {now : Nat} {row : ReplayJob} {wk : Worker} {input : Input}
    {m : Move} (hsorted : world.Sorted) (hrow : SafeColumns cfg.window world acked row)
    (h : SafePhase cfg.window world acked wk.phase)
    (hm : wk.go cfg now row world input = some m) :
    SafePhase cfg.window world (acked ++ m.acked.toList) m.worker.phase := by
  -- most steps move the worker and acknowledge nothing
  have hto : ∀ {wk' : Worker} {phase : Phase}, SafePhase cfg.window world acked phase →
      SafePhase cfg.window world (acked ++ (wk'.to phase).acked.toList)
        (wk'.to phase).worker.phase := by
    intro wk' phase hphase
    rw [Worker.to_phase, Worker.to_acked, Option.toList_none, List.append_nil]
    exact hphase
  cases Worker.went hm with
  | committed base tx hph =>
      rw [hph] at h
      rw [Option.toList_none, List.append_nil]
      exact SafeTx.after_commit h.1 h.2
  | answered job stream event attempt hph hanswer =>
      rw [hph] at h
      obtain ⟨hjob, hhand, -⟩ := h
      simp only [Worker.to_phase, Option.toList_some]
      have hsub : acked ⊆ acked ++ [event.message_id] := List.subset_append_left _ _
      exact ⟨hjob.grow (World.Grows.refl world) hsub,
        hhand.grow (World.Grows.refl world) hsub hhand.good,
        fun _ _ => List.mem_append_right _ (List.mem_singleton.mpr rfl)⟩
  | streamed job stream stream' hph hs =>
      rw [hph] at h
      exact hto ⟨h.1, h.2.more hsorted hs⟩
  | got_event job stream stream' event hph hs =>
      rw [hph] at h
      exact hto ⟨h.1, h.2.yield hsorted hs, fun _ h' => by contradiction⟩
  | stream_ended job stream stream' hph hs =>
      rw [hph] at h
      exact hto (h.2.done hsorted hs)
  | shut_down job stream event hph | saw_paused job stream event hph =>
      rw [hph] at h
      exact hto (h.1)
  | still_running job stream event hph | may_send job stream event hph
  | sent job stream event attempt hph | retried job stream event attempt hph
  | gave_up job stream event attempt hph =>
      rw [hph] at h
      exact hto (h.keep fun _ h' => by contradiction)
  | records_event job stream event was_dup hph =>
      rw [hph] at h
      -- the event was acknowledged, so its position may be recorded
      have hin := h.2.2 was_dup rfl
      exact hto ⟨ReplayJob.RecordsOnly.progress hrow (h.2.1.safeUpTo hin), h.2.1.resume hin⟩
  | checkpoints job hph =>
      rw [hph] at h
      exact hto ⟨ReplayJob.RecordsOnly.checkpoint h hrow, trivial⟩
  | completes stream hph =>
      rw [hph] at h
      exact hto ⟨hrow.congr rfl rfl, h⟩
  | set_up | records_failure | fails =>
      exact hto ⟨hrow.congr rfl rfl, trivial⟩
  | read_job | stream_raised | saw_cancelled => trivial

end

/-! ## Runs

The invariant is kept by all interleavings, apart from one step of a producer: the gap between
the lookup and the seek of a partition. -/

/-- The step is not a write of a message of the window to a partition that a generator has
looked up without result and not yet sought to its end. -/
def NoGap (w : Window) (s : Sys) : Action → Prop
  | .produce p message => w.contains message.timestamp →
      ∀ v stream, (s.workers v).phase.stream? = some stream → p ∉ stream.pending
  | _ => True

/-- The invariant of the whole system. -/
structure SafeSys (w : Window) (s : Sys) : Prop where
  sorted : s.world.Sorted
  row : SafeColumns w s.world s.acked s.row
  workers : ∀ v, SafePhase w s.world s.acked (s.workers v).phase

/-- Every event of the window at or below a recorded position is acknowledged. -/
def CheckpointAcked (w : Window) (s : Sys) : Prop :=
  ∀ m, s.world.InWindow w m → (∃ id, s.row.Recorded id ∧ AtOrBefore m id) → m ∈ s.acked

/-- A worker that calls `ReplayEvent` has everything before the event acknowledged. -/
def SendsInOrder (w : Window) (s : Sys) : Action → Prop
  | .go v _ => ∀ job stream event attempt,
      (s.workers v).phase = .in_hand job stream event (.ready attempt) →
      ∀ m, s.world.InWindow w m → m.before event.message_id → m ∈ s.acked
  | _ => True

/-- A worker that commits `COMPLETED` has everything acknowledged that its generator could
see: up to the high-water snapshot of Kafka, or up to the last `XRANGE`. -/
def CompletesAcked (w : Window) (s : Sys) : Action → Prop
  | .go v _ => ∀ base stream now,
      (s.workers v).phase = .writing base (.complete stream now) →
      ∀ m, s.world.InWindow w m → stream.Visible s.world m → m ∈ s.acked
  | _ => True

section

variable {cfg : Config} {s t : Sys} {a : Action}

/-- What the invariant says of the committed row, -/
theorem SafeSys.checkpointAcked {w : Window} (h : SafeSys w s) : CheckpointAcked w s := by
  rintro m hm ⟨id, hid, hle⟩
  exact (h.row id hid).acked m hm hle

/-- of a worker that is about to send an event, -/
theorem SafeSys.sendsInOrder {w : Window} (h : SafeSys w s) (a : Action) : SendsInOrder w s a := by
  cases a with
  | go v input =>
      intro job stream event attempt hph m hm hbefore
      have hv := h.workers v
      rw [hph] at hv
      rcases hv.2.1.acked m hm (hv.2.1.passed m (Or.inr hbefore)) with rfl | hin
      · -- nothing comes before itself
        cases hid : event.message_id with
        | redis id => rw [hid] at hbefore; exact absurd hbefore (StreamId.lt_irrefl id)
        | kafka p o => rw [hid] at hbefore; exact absurd hbefore.2 (Nat.lt_irrefl o)
      · exact hin
  | _ => trivial

/-- and of one that is about to commit `COMPLETED`. -/
theorem SafeSys.completesAcked {w : Window} (h : SafeSys w s) (a : Action) :
    CompletesAcked w s a := by
  cases a with
  | go v input =>
      intro base stream now hph m hm hvis
      have hv := h.workers v
      rw [hph] at hv
      exact SafeEnd.acked hv.2 m hm hvis
  | _ => trivial

/-- A generator keeps its invariant under the appends of a step without a gap. -/
theorem good_of_noGap (hgap : NoGap cfg.window s a) (hs : step cfg s a = some t) {v : Nat}
    {stream : Stream} (hstream : (s.workers v).phase.stream? = some stream)
    (h : stream.Good cfg.window s.world) : stream.Good cfg.window t.world := by
  cases step_took hs with
  | xadd e hnew => exact h.grow (World.grows_xadd hnew) fun _ _ _ hin => hin
  | produce p message hp hm =>
      refine h.grow (World.grows_produce s.world p message) fun q hq o hin => ?_
      rcases World.inWindow_of_produce hp hin with hin | ⟨heq, hw⟩
      · exact hin
      · cases heq
        exact absurd hq (hgap hw v stream hstream)
  | _ => exact h

/-- **What a row records after a step**, it and the transactions of the workers recorded
before. -/
theorem ReplayJob.RecordsOnly.step {P : MessageId → Prop} (hrow : s.row.RecordsOnly P)
    (hcommit : ∀ v base tx, (s.workers v).phase = .writing base tx → (tx.body base).RecordsOnly P)
    (hs : step cfg s a = some t) : t.row.RecordsOnly P := by
  rcases row_cases hs with ht | ⟨i, tx, _, _, ht⟩ | ⟨v, input, base, tx, _, hw, ht⟩ |
    ⟨v, _, _, ht⟩ | ⟨v, _, ht⟩
  · rw [ht]
    exact hrow
  · rw [ht]
    exact ReplayJob.RecordsOnly.flush_api (ApiOp.apply_spec tx.accepted).1 hrow
  · rw [ht]
    exact (hcommit v base tx hw).flush hrow
  · rw [ht]
    exact hrow.congr rfl rfl
  · rw [ht, renewed_row]
    split
    · exact hrow.congr rfl rfl
    · exact hrow

/-- **One step** without a gap keeps the invariant. -/
theorem SafeSys.step (h : SafeSys cfg.window s) (hgap : NoGap cfg.window s a)
    (hs : step cfg s a = some t) : SafeSys cfg.window t := by
  obtain ⟨hg, hsorted⟩ := world_grows hs
  have hsub := acked_grows hs
  refine ⟨hsorted h.sorted, ?_, fun v => ?_⟩
  · refine ReplayJob.RecordsOnly.step (h.row.grow hg hsub) (fun v base tx hw => ?_) hs
    have hv := h.workers v
    rw [hw] at hv
    exact hv.1.grow hg hsub
  · refine phase_holds (Q := SafePhase cfg.window t.world t.acked) trivial trivial
      (fun _ => trivial) hs ?_ ?_
    · exact (h.workers v).grow hg hsub fun stream hst => good_of_noGap hgap hs hst
    · rintro input m - hm rfl
      exact SafePhase.go h.sorted h.row (h.workers v) hm

/-- **At-least-once delivery.** In every run without a gap, from the creation of a job and
whatever the workers, the requests and the producers do, every event of the window at or
below the persisted checkpoint is acknowledged in every state; every call of `ReplayEvent`
is made with all earlier events of the same stream or partition acknowledged; and every
commit of `_complete_job` with all the events the worker's generator could see. -/
theorem at_least_once {speed_factor : Rat} {world : World} {clock : Nat}
    {tr : List (Sys × Action)} (hsorted : world.Sorted)
    (hrun : Run (step cfg) (Sys.initial speed_factor world clock) tr s)
    (hgap : StepsMeet (NoGap cfg.window) tr) :
    ((∀ p ∈ tr, CheckpointAcked cfg.window p.1) ∧ CheckpointAcked cfg.window s) ∧
      ∀ p ∈ tr, SendsInOrder cfg.window p.1 p.2 ∧ CompletesAcked cfg.window p.1 p.2 := by
  have h0 : SafeSys cfg.window (Sys.initial speed_factor world clock) := by
    refine ⟨hsorted, fun id hid => ?_, fun v => trivial⟩
    rcases hid with hid | ⟨offsets, p, o, hcp, _, _⟩
    · cases hid
    · cases hcp
  have hstep : ∀ s a t, SafeSys cfg.window s → NoGap cfg.window s a →
      Job.step cfg s a = some t → SafeSys cfg.window t := fun s a t h hC hs => h.step hC hs
  have hmem := hrun.invariant_mem hstep h0 hgap
  have hend := hrun.invariant hstep h0 hgap
  exact ⟨⟨fun p hp => (hmem p hp).checkpointAcked, hend.checkpointAcked⟩,
    fun p hp => ⟨(hmem p hp).sendsInOrder p.2, (hmem p hp).completesAcked p.2⟩⟩

/-- Two events, the second of them sent by two workers: the first worker dies between the
answer and the record of it. -/
theorem at_least_once_crashed :
    ∃ tr s, Run (step short_config) (Sys.initial 1 two_events 0) tr s ∧
      s.row.status = .completed ∧ s.acked = [.kafka 0 0, .kafka 0 1, .kafka 0 1] ∧
      ((∀ p ∈ tr, CheckpointAcked short_config.window p.1) ∧
        CheckpointAcked short_config.window s) ∧
      ∀ p ∈ tr, SendsInOrder short_config.window p.1 p.2 ∧
        CompletesAcked short_config.window p.1 p.2 := by
  have hrun : ∃ tr s, Run (step short_config) (Sys.initial 1 two_events 0) tr s ∧
      StepsMeet (NoGap short_config.window) tr ∧
      s.row.status = .completed ∧ s.acked = [.kafka 0 0, .kafka 0 1, .kafka 0 1] :=
    exists_run_meeting_of_exec (until_crash ++ .crash 0 :: after_crash)
      -- the one message appended lies after the window
      (.of_forall (by simp [until_crash, after_crash, NoGap, Window.contains, short_config]))
      (by decide)
  obtain ⟨tr, s, hrun, hgap, hstatus, hacked⟩ := hrun
  exact ⟨tr, s, hrun, hstatus, hacked, at_least_once two_events_sorted hrun hgap⟩

/-- The gap: `offsets_for_times` finds nothing in the empty partition, a message of the
window is appended, and the partition is sought behind it. The next message is replayed and
recorded, and the checkpoint has passed an event that no worker ever saw. -/
theorem appended_event_skipped :
    ∃ tr s, Run (step short_config) (Sys.initial 1 empty_world 0) tr s ∧
      ¬ CheckpointAcked short_config.window s := by
  have hrun : ∃ tr s, Run (step short_config) (Sys.initial 1 empty_world 0) tr s ∧
      s.row.last_processed_id = .id (.kafka 0 1) ∧ s.acked = [.kafka 0 1] ∧
      (s.world.kafka.log 0)[0]? = some ⟨15, sampleRecord "1"⟩ :=
    exists_run_of_exec
      [.api_read 0 .start, .api_commit 0, .boot 0, .acquire 0,
        .go 0 {}, .go 0 {}, .go 0 {}, .go 0 {},
        .produce 0 ⟨15, sampleRecord "1"⟩, .go 0 {}, .produce 0 ⟨16, sampleRecord "2"⟩,
        .go 0 {}, .go 0 {}, .go 0 {}, .go 0 {}, .go 0 {},
        .go 0 { success := true }, .go 0 {}, .go 0 {}] (by decide)
  obtain ⟨tr, s, hrun, hlast, hacked, hlog⟩ := hrun
  refine ⟨tr, s, hrun, fun h => ?_⟩
  have hin := h (.kafka 0 0) ⟨_, hlog, by decide⟩ ⟨_, Or.inl hlast, Or.inr ⟨rfl, by decide⟩⟩
  rw [hacked] at hin
  exact absurd hin (by decide)

end

end WalStream.Job

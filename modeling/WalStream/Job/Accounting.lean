/-
Exact accounting.

While one worker at a time executes the job, over a window whose contents are fixed, the two
counters and the checkpoint move together: an acknowledged event is counted and recorded in
one transaction, and nothing else writes these columns. `Books` says so of the committed row;
`AccountPhase` says what the worker's generator still has to yield: everything of the window
that the row does not cover. It is re-established at every restart, because the generator is
opened on what the row covers.

The events counted must be of the window, and there the Kafka source has the gap of
`Job.Delivery` again: a message from before the window, appended to a partition between its
seek to the end and the high-water snapshot, is replayed and counted.
-/
import WalStream.Job.Delivery
import WalStream.Job.Lifecycle
import WalStream.Job.Ownership
import WalStream.Source.Coverage

set_option autoImplicit false

namespace WalStream.Job

open Lib Source

/-! ## What the row covers

The accounts of a job are kept by its row alone. Which events it covers is read off its
checkpoint, and a generator opened on it has passed those and no others: so a worker that takes
over the job begins where the counters end. -/

/-- The event is at or below the persisted checkpoint: `last_processed_id` for Redis, the
offset of its partition for Kafka. -/
def ReplayJob.covers (job : ReplayJob) : MessageId → Bool
  | .redis id =>
      match job.last_processed_id with
      | .id (.redis c) => decide (id ≤ c)
      | _ => false
  | .kafka p o =>
      match job.checkpoint.bind fun offsets => offsets.get? p with
      | some c => decide (o ≤ c)
      | none => false

/-- For Redis the row holds one position and covers everything up to it. -/
theorem covers_redis_iff {job : ReplayJob} {id : StreamId} :
    job.covers (.redis id) = true ↔ ∃ c, job.last_processed_id = .id (.redis c) ∧ id ≤ c := by
  simp only [ReplayJob.covers]
  split
  · rename_i c hlast
    simp [hlast]
  · rename_i hnot
    simp only [Bool.false_eq_true, false_iff, not_exists, not_and]
    exact fun c hlast => absurd hlast (hnot c)

/-- For Kafka it holds one position for each partition, and says nothing of the partitions it
has none for. -/
theorem covers_kafka_iff {job : ReplayJob} {p o : Nat} :
    job.covers (.kafka p o) = true ↔
      ∃ offsets c, job.checkpoint = some offsets ∧ offsets.get? p = some c ∧ o ≤ c := by
  simp only [ReplayJob.covers]
  cases hcp : job.checkpoint with
  | none => simp
  | some offsets =>
      simp only [Option.bind_some]
      cases hget : offsets.get? p with
      | none => simp [hget]
      | some c => simp [hget]

/-- What a row may have recorded: ids of the window, all of the job's source, and for Kafka
the last id in the map too. -/
structure Ledger (w : Window) (world : World) (job : ReplayJob) : Prop where
  inWindow : ∀ id, job.Recorded id → world.InWindow w id
  source : ∀ id, job.Recorded id → job.replay_source = some id.source
  last : ∀ p o, job.last_processed_id = .id (.kafka p o) →
    ∃ offsets, job.checkpoint = some offsets ∧ offsets.get? p = some o

section

variable {w : Window} {world : World} {job : ReplayJob}

/-- What is covered is of the job's source. -/
theorem Ledger.covers_source (h : Ledger w world job) {m : MessageId}
    (hm : job.covers m = true) : job.replay_source = some m.source := by
  cases m with
  | redis id =>
      obtain ⟨c, hlast, _⟩ := covers_redis_iff.mp hm
      exact h.source (.redis c) (Or.inl hlast)
  | kafka p o =>
      obtain ⟨offsets, c, hcp, hget, _⟩ := covers_kafka_iff.mp hm
      exact h.source (.kafka p c) (Or.inr ⟨offsets, p, c, hcp, hget, rfl⟩)

/-- What is covered lies at or before a recorded position, and conversely. -/
theorem Ledger.covers_iff (h : Ledger w world job) {m : MessageId} :
    job.covers m = true ↔ ∃ id, job.Recorded id ∧ AtOrBefore m id := by
  constructor
  · intro hm
    cases m with
    | redis id =>
        obtain ⟨c, hlast, hle⟩ := covers_redis_iff.mp hm
        exact ⟨.redis c, Or.inl hlast, atOrBefore_redis.mpr hle⟩
    | kafka p o =>
        obtain ⟨offsets, c, hcp, hget, hle⟩ := covers_kafka_iff.mp hm
        exact ⟨.kafka p c, Or.inr ⟨offsets, p, c, hcp, hget, rfl⟩,
          atOrBefore_kafka.mpr ⟨rfl, hle⟩⟩
  · rintro ⟨id, hid, hle⟩
    -- a recorded Kafka id is in the map, whichever column it was found in
    have hmap : ∀ p c, id = .kafka p c →
        ∃ offsets, job.checkpoint = some offsets ∧ offsets.get? p = some c := by
      rintro p c rfl
      rcases hid with hlast | ⟨offsets, q, o, hcp, hget, heq⟩
      · exact h.last p c hlast
      · cases heq
        exact ⟨offsets, hcp, hget⟩
    cases id with
    | redis c =>
        cases m with
        | redis id =>
            rcases hid with hlast | ⟨_, _, _, _, _, heq⟩
            · exact covers_redis_iff.mpr ⟨c, hlast, atOrBefore_redis.mp hle⟩
            · cases heq
        | kafka p o => cases AtOrBefore.source_eq hle
    | kafka q c =>
        cases m with
        | redis id => cases AtOrBefore.source_eq hle
        | kafka p o =>
            obtain ⟨rfl, ho⟩ := atOrBefore_kafka.mp hle
            obtain ⟨offsets, hcp, hget⟩ := hmap p c rfl
            exact covers_kafka_iff.mpr ⟨offsets, c, hcp, hget, ho⟩

/-- **Restart.** A generator opened on the job has passed what the row covers, and nothing
else. -/
theorem Ledger.passed_iff_covers (h : Ledger w world job) {source : SourceName}
    (hsource : job.replay_source = some source) {position : Nat → Nat} {stream : Stream}
    (hopen : Stream.open source world position (checkpoint_argument source job) = .ok stream)
    (m : MessageId) : stream.Passed m ↔ job.covers m = true := by
  rw [Stream.open_passed hopen]
  constructor
  · rintro ⟨-, cp, hcp, hcov⟩
    exact h.covers_iff.mpr (exists_recorded_of_covers hcp hcov)
  · intro hm
    -- the generator is of the job's source, and so is all that the row covers
    have heq : source = m.source := Option.some.inj (hsource.symm.trans (h.covers_source hm))
    subst heq
    refine ⟨rfl, ?_⟩
    cases m with
    | redis id =>
        obtain ⟨c, hlast, hle⟩ := covers_redis_iff.mp hm
        refine ⟨.id (.redis c), ?_, atOrBefore_redis.mpr hle⟩
        simp only [checkpoint_argument, MessageId.source, hlast]
        rfl
    | kafka p o =>
        obtain ⟨offsets, c, hcp, hget, hle⟩ := covers_kafka_iff.mp hm
        refine ⟨.json offsets, ?_, c, hget, hle⟩
        simp only [checkpoint_argument, MessageId.source, hcp,
          Dict.isEmpty_eq_false_of_get? hget, Bool.false_eq_true, if_false]

/-- Recording a Redis event replaces the position. In the stream's order it is never replaced by
an earlier one, but that is not known yet here. -/
theorem covers_update_redis {e id : StreamId} :
    (update_checkpoint job (.redis e) .redis).covers (.redis id) = true ↔ id ≤ e := by
  rw [covers_redis_iff]
  simp only [update_checkpoint, LastProcessedId.id.injEq, MessageId.redis.injEq, exists_eq_left']

/-- Recording a Kafka event replaces the offset of its partition. -/
theorem covers_update_kafka {p q c o : Nat} :
    (update_checkpoint job (.kafka q c) .kafka).covers (.kafka p o) = true ↔
      if p = q then o ≤ c else job.covers (.kafka p o) = true := by
  simp only [ReplayJob.covers, update_checkpoint, Option.bind_some, Dict.get?_set]
  by_cases hpq : p = q
  · simp only [if_pos hpq, decide_eq_true_eq]
  · rw [if_neg hpq, if_neg hpq]
    cases job.checkpoint with
    | none => simp
    | some offsets => simp

/-- **Recording an event.** The row covers it and everything before it, besides what it
covered already. -/
theorem Ledger.covers_update (h : Ledger w world job) {source : SourceName} {event : MessageId}
    (hsource : job.replay_source = some source) (hevent : event.source = source)
    (hfresh : job.covers event = false) (m : MessageId) :
    (update_checkpoint job event source).covers m = true ↔
      job.covers m = true ∨ AtOrBefore m event := by
  subst hevent
  cases event with
  | redis e =>
      cases m with
      | redis id =>
          simp only [MessageId.source]
          rw [covers_update_redis, atOrBefore_redis]
          refine ⟨Or.inr, ?_⟩
          rintro (hcov | hle)
          · -- the old position is below the event, which it does not cover
            obtain ⟨c, hlast, hle⟩ := covers_redis_iff.mp hcov
            have hlt : c < e := by
              rw [← StreamId.not_le]
              intro hec
              rw [covers_redis_iff.mpr ⟨c, hlast, hec⟩] at hfresh
              cases hfresh
            exact StreamId.le_trans hle (StreamId.le_of_lt hlt)
          · exact hle
      | kafka p o =>
          rw [covers_kafka_iff, covers_kafka_iff]
          exact ⟨Or.inl, fun hor => hor.resolve_right fun hle => by cases hle.source_eq⟩
  | kafka q c =>
      cases m with
      | redis id =>
          -- a Kafka job covers no Redis id, before or after
          rw [covers_redis_iff]
          simp only [update_checkpoint, MessageId.source, LastProcessedId.id.injEq, reduceCtorEq,
            false_and, exists_false, false_iff, not_or]
          refine ⟨fun hold => ?_, fun hle => by cases hle.source_eq⟩
          have hs := h.covers_source hold
          rw [hsource] at hs
          cases hs
      | kafka p o =>
          simp only [MessageId.source]
          rw [covers_update_kafka, atOrBefore_kafka]
          by_cases hpq : p = q
          · subst hpq
            rw [if_pos rfl]
            refine ⟨fun hle => Or.inr ⟨rfl, hle⟩, ?_⟩
            rintro (hcov | hle)
            · obtain ⟨offsets, c', hcp, hget, hle⟩ := covers_kafka_iff.mp hcov
              have hlt : c' < c := by
                by_contra hge
                rw [covers_kafka_iff.mpr ⟨offsets, c', hcp, hget, Nat.not_lt.mp hge⟩] at hfresh
                cases hfresh
              omega
            · exact hle.2
          · rw [if_neg hpq]
            exact ⟨Or.inl, fun hor => hor.resolve_right fun hle => hpq hle.1⟩

/-- The ledger after it. -/
theorem Ledger.update (h : Ledger w world job) {source : SourceName} {event : MessageId}
    (hsource : job.replay_source = some source) (hevent : event.source = source)
    (hin : world.InWindow w event) : Ledger w world (update_checkpoint job event source) := by
  refine ⟨fun id hid => ?_, fun id hid => ?_, fun p o hlast => ?_⟩
  · rcases recorded_update_checkpoint hid with rfl | hid
    · exact hin
    · exact h.inWindow id hid
  · rw [update_checkpoint_replay_source]
    rcases recorded_update_checkpoint hid with rfl | hid
    · rw [hsource, hevent]
    · exact h.source id hid
  · simp only [update_checkpoint, LastProcessedId.id.injEq] at hlast
    subst hlast
    subst hevent
    exact ⟨_, rfl, Dict.get?_set_self ..⟩

end

/-! ## Columns that a step leaves alone

A session writes the columns that its object changed, so a request or a renewal leaves the
counters and the checkpoint as they are in the row, and not as they were when it read. The
relations here say so in the two strengths that are needed: the same data, and the same recorded
positions. -/

/-- The counters, the source and the checkpoint columns agree. -/
structure SameData (job job' : ReplayJob) : Prop where
  processed : job'.events_processed = job.events_processed
  skipped : job'.events_skipped_dedup = job.events_skipped_dedup
  source : job'.replay_source = job.replay_source
  checkpoint : job'.checkpoint = job.checkpoint
  last : job'.last_processed_id = job.last_processed_id

/-- The relation is an equivalence, so that steps which leave the data alone can be put together
without being looked at. -/
theorem SameData.refl (job : ReplayJob) : SameData job job := ⟨rfl, rfl, rfl, rfl, rfl⟩

theorem SameData.symm {job job' : ReplayJob} (h : SameData job job') : SameData job' job :=
  ⟨h.processed.symm, h.skipped.symm, h.source.symm, h.checkpoint.symm, h.last.symm⟩

theorem SameData.trans {job job' job'' : ReplayJob} (h : SameData job job')
    (h' : SameData job' job'') : SameData job job'' :=
  ⟨h'.processed.trans h.processed, h'.skipped.trans h.skipped, h'.source.trans h.source,
    h'.checkpoint.trans h.checkpoint, h'.last.trans h.last⟩

/-- A transaction that read the current data leaves the data of its object. -/
theorem SameData.flush {base row : ReplayJob} (h : SameData row base) (new : ReplayJob) :
    SameData new (flush base new row) := by
  constructor
  · simp only [Job.flush, ← h.processed, written_current]
  · simp only [Job.flush, ← h.skipped, written_current]
  · simp only [Job.flush, ← h.source, written_current]
  · simp only [Job.flush, ← h.checkpoint, written_current]
  · simp only [Job.flush, ← h.last, written_current]

/-- An API operation leaves the data alone. -/
theorem SameData.flush_api {base new : ReplayJob} (h : ApiChange base new) (row : ReplayJob) :
    SameData row (Job.flush base new row) := by
  constructor
  · simp only [Job.flush, h.events_processed, written_self]
  · simp only [Job.flush, h.events_skipped_dedup, written_self]
  · simp only [Job.flush, h.replay_source, written_self]
  · simp only [Job.flush, h.checkpoint, written_self]
  · simp only [Job.flush, h.last_processed_id, written_self]

/-- The same positions are recorded, and the source is the same. `_checkpoint_job` may turn a
missing `last_processed_id` into the empty string. -/
structure SamePositions (job job' : ReplayJob) : Prop where
  source : job'.replay_source = job.replay_source
  checkpoint : job'.checkpoint = job.checkpoint
  last : job'.last_processed_id.toMessageId? = job.last_processed_id.toMessageId?

/-- Whoever leaves the data alone leaves the positions alone. -/
theorem SameData.positions {job job' : ReplayJob} (h : SameData job job') :
    SamePositions job job' :=
  ⟨h.source, h.checkpoint, by rw [h.last]⟩

/-- The two values `_checkpoint_job` may write for a missing id, `None` and the empty string,
are no message id either way. -/
theorem SamePositions.last_iff {job job' : ReplayJob} (h : SamePositions job job')
    (m : MessageId) : job'.last_processed_id = .id m ↔ job.last_processed_id = .id m := by
  have hiff : ∀ l : LastProcessedId, l = .id m ↔ l.toMessageId? = some m := by
    intro l
    cases l <;> simp [LastProcessedId.toMessageId?]
  rw [hiff, hiff, h.last]

/-- So the same ids are recorded, -/
theorem SamePositions.recorded_iff {job job' : ReplayJob} (h : SamePositions job job')
    (id : MessageId) : job'.Recorded id ↔ job.Recorded id := by
  rw [ReplayJob.Recorded, ReplayJob.Recorded, h.last_iff, h.checkpoint]

/-- the same events are covered, -/
theorem SamePositions.covers_iff {job job' : ReplayJob} (h : SamePositions job job')
    (m : MessageId) : job'.covers m = true ↔ job.covers m = true := by
  cases m with
  | redis id =>
      rw [covers_redis_iff, covers_redis_iff]
      exact exists_congr fun c => and_congr_left fun _ => h.last_iff _
  | kafka p o => rw [covers_kafka_iff, covers_kafka_iff, h.checkpoint]

/-- and the ledger, which only speaks of these, is the same. -/
theorem Ledger.congr {w : Window} {world : World} {job job' : ReplayJob}
    (h : Ledger w world job) (hsame : SamePositions job job') : Ledger w world job' where
  inWindow id hid := h.inWindow id ((hsame.recorded_iff id).mp hid)
  source id hid := by
    rw [hsame.source]
    exact h.source id ((hsame.recorded_iff id).mp hid)
  last p o hlast := by
    rw [hsame.checkpoint]
    exact h.last p o ((hsame.last_iff _).mp hlast)

/-! ## The books

The books are a statement on the row; what lies between a step of the generator and its commit
is a statement on the worker. An event in hand is passed and not covered, and there is never
more than one such event of the window, which makes the commit of progress add exactly one to
both sides. -/

/-- The row covers all of its source's window. -/
def AllCovered (w : Window) (world : World) (row : ReplayJob) : Prop :=
  ∃ source, row.replay_source = some source ∧
    ∀ m, world.InWindow w m → m.source = source → row.covers m = true

/-- The counters of the row add up to the events the checkpoint was advanced to, which are
the events of the window it covers, each once. -/
structure Books (w : Window) (world : World) (row : ReplayJob) (advanced : List MessageId) :
    Prop where
  ledger : Ledger w world row
  nodup : advanced.Nodup
  count : row.events_processed + row.events_skipped_dedup = advanced.length
  advanced : ∀ m, m ∈ advanced ↔ world.InWindow w m ∧ row.covers m = true
  completed : row.status = .completed → AllCovered w world row

/-- The generator of a worker that owns the job: what it has passed of the window is what
the row covers. -/
structure AccountStream (w : Window) (world : World) (row : ReplayJob) (stream : Stream) :
    Prop where
  source : row.replay_source = some stream.source
  bounded : stream.Bounded w world
  passed : ∀ m, world.InWindow w m → (stream.Passed m ↔ row.covers m = true)

/-- An event in hand: of the window, not covered yet, and the only such event passed. -/
structure AccountHand (w : Window) (world : World) (row : ReplayJob) (stream : Stream)
    (event : ReplayEvent) : Prop where
  source : row.replay_source = some stream.source
  event_source : event.message_id.source = stream.source
  bounded : stream.Bounded w world
  inWindow : world.InWindow w event.message_id
  fresh : row.covers event.message_id = false
  before : ∀ m, AtOrBefore m event.message_id → stream.Passed m
  passed : ∀ m, world.InWindow w m →
    (stream.Passed m ↔ row.covers m = true ∨ m = event.message_id)

/-- What a transaction in flight relies on. -/
def AccountTx (w : Window) (world : World) (row : ReplayJob) : WorkerTx → Prop
  | .setup source _ => row.replay_source = none ∨ row.replay_source = some source
  | .progress stream event _ _ => AccountHand w world row stream event
  | .checkpoint last_id _ => last_id.toMessageId? = row.last_processed_id.toMessageId?
  | .complete _ _ => AllCovered w world row
  | _ => True

/-- What a worker relies on. -/
def AccountPhase (w : Window) (world : World) (row : ReplayJob) : Phase → Prop
  | .fetched job => SameData row job
  | .writing base tx => SameData row base ∧ AccountTx w world row tx
  | .streaming job stream => SameData row job ∧ AccountStream w world row stream
  | .in_hand job stream event _ => SameData row job ∧ AccountHand w world row stream event
  | .checkpointing job => SameData row job
  | .completing _ => AllCovered w world row
  | _ => True

section

variable {w : Window} {world world' : World} {row row' : ReplayJob} {advanced : List MessageId}
  {stream : Stream}

/-- Which events are covered is decided by the positions alone. -/
theorem AllCovered.congr (h : AllCovered w world row) (hsame : SamePositions row row') :
    AllCovered w world row' := by
  obtain ⟨source, hsource, hall⟩ := h
  exact ⟨source, hsame.source.trans hsource,
    fun m hm hms => (hsame.covers_iff m).mpr (hall m hm hms)⟩

/-- A source may grow, as long as nothing is added to the window. -/
theorem AllCovered.grow (h : AllCovered w world row)
    (hin : ∀ m, world'.InWindow w m ↔ world.InWindow w m) : AllCovered w world' row := by
  obtain ⟨source, hsource, hall⟩ := h
  exact ⟨source, hsource, fun m hm hms => hall m ((hin m).mp hm) hms⟩

/-- A generator's share in the books is stated against the row, so it has to be carried over
when the row changes elsewhere. -/
theorem AccountStream.congr (h : AccountStream w world row stream) (hsame : SameData row row') :
    AccountStream w world row' stream where
  source := hsame.source.trans h.source
  bounded := h.bounded
  passed m hm := (h.passed m hm).trans (hsame.positions.covers_iff m).symm

/-- The same for an event in hand. -/
theorem AccountHand.congr {event : ReplayEvent} (h : AccountHand w world row stream event)
    (hsame : SameData row row') : AccountHand w world row' stream event where
  source := hsame.source.trans h.source
  event_source := h.event_source
  bounded := h.bounded
  inWindow := h.inWindow
  fresh := by
    rw [Bool.eq_false_iff, Ne, hsame.positions.covers_iff, h.fresh]
    exact Bool.false_ne_true
  before := h.before
  passed m hm := (h.passed m hm).trans (or_congr_left (hsame.positions.covers_iff m).symm)

/-- The phase only looks at the data of the row. -/
theorem AccountPhase.congr {phase : Phase} (h : AccountPhase w world row phase)
    (hsame : SameData row row') : AccountPhase w world row' phase := by
  cases phase with
  | fetched job => exact hsame.symm.trans h
  | writing base tx =>
      refine ⟨hsame.symm.trans h.1, ?_⟩
      have htx := h.2
      cases tx with
      | setup source count =>
          simp only [AccountTx, hsame.source]
          exact htx
      | progress stream event was_dup now => exact AccountHand.congr htx hsame
      | checkpoint last_id now =>
          simp only [AccountTx, hsame.last]
          exact htx
      | complete stream now => exact AllCovered.congr htx hsame.positions
      | event_failed event attempts now => trivial
      | fail error => trivial
  | streaming job stream => exact ⟨hsame.symm.trans h.1, h.2.congr hsame⟩
  | in_hand job stream event stage => exact ⟨hsame.symm.trans h.1, h.2.congr hsame⟩
  | checkpointing job => exact hsame.symm.trans h
  | completing stream => exact AllCovered.congr h hsame.positions
  | idle => trivial
  | acquired => trivial
  | failing error => trivial

/-- It survives growth outside the window that keeps the generator bounded. -/
theorem AccountPhase.grow {phase : Phase} (h : AccountPhase w world row phase)
    (hin : ∀ m, world'.InWindow w m ↔ world.InWindow w m)
    (hbounded : ∀ stream, phase.stream? = some stream → stream.Bounded w world →
      stream.Bounded w world') : AccountPhase w world' row phase := by
  -- what is said of an event in hand is said of the window, which is the same
  have hhand : ∀ {stream event}, AccountHand w world row stream event →
      (stream.Bounded w world → stream.Bounded w world') →
      AccountHand w world' row stream event := by
    intro stream event hh hb
    exact ⟨hh.source, hh.event_source, hb hh.bounded, (hin _).mpr hh.inWindow, hh.fresh,
      hh.before, fun m hm => hh.passed m ((hin m).mp hm)⟩
  cases phase with
  | writing base tx =>
      refine ⟨h.1, ?_⟩
      cases tx with
      | progress stream event was_dup now => exact hhand h.2 (hbounded stream rfl)
      | complete stream now => exact AllCovered.grow h.2 hin
      | setup source count => exact h.2
      | checkpoint last_id now => exact h.2
      | event_failed event attempts now => trivial
      | fail error => trivial
  | streaming job stream =>
      exact ⟨h.1, h.2.source, hbounded stream rfl h.2.bounded,
        fun m hm => h.2.passed m ((hin m).mp hm)⟩
  | in_hand job stream event stage => exact ⟨h.1, hhand h.2 (hbounded stream rfl)⟩
  | completing stream => exact AllCovered.grow h hin
  | fetched job => exact h
  | checkpointing job => exact h
  | idle => trivial
  | acquired => trivial
  | failing error => trivial

/-- Books stay right when the positions are kept and the sum of the two counters is, even if
`_checkpoint_job` or a request has written the row in between. -/
theorem Books.congr (h : Books w world row advanced) (hsame : SamePositions row row')
    (hcount : row'.events_processed + row'.events_skipped_dedup
      = row.events_processed + row.events_skipped_dedup)
    (hcompleted : row'.status = .completed → AllCovered w world row) :
    Books w world row' advanced where
  ledger := h.ledger.congr hsame
  nodup := h.nodup
  count := hcount.trans h.count
  advanced m := (h.advanced m).trans (and_congr_right fun _ => (hsame.covers_iff m).symm)
  completed hs := (hcompleted hs).congr hsame

/-- And they stay right when a source grows outside the window. -/
theorem Books.grow (h : Books w world row advanced)
    (hin : ∀ m, world'.InWindow w m ↔ world.InWindow w m) : Books w world' row advanced where
  ledger := ⟨fun id hid => (hin id).mpr (h.ledger.inWindow id hid), h.ledger.source,
    h.ledger.last⟩
  nodup := h.nodup
  count := h.count
  advanced m := (h.advanced m).trans (and_congr_left fun _ => (hin m).symm)
  completed hs := (h.completed hs).grow hin

end

/-! ## A commit

The transactions are taken one by one. Only that of progress counts; the one of completion is
the only one to set the status, and it follows a generator that has passed the whole window. -/

section

variable {w : Window} {world : World} {row base : ReplayJob} {advanced : List MessageId}

/-- A commit makes the status `COMPLETED` only if it was, or if it is `_complete_job`'s. -/
theorem completed_of_flush {tx : WorkerTx}
    (h : (flush base (tx.body base) row).status = .completed) :
    row.status = .completed ∨ tx.target = some .completed := by
  simp only [flush, tx.body_status] at h
  cases htarget : tx.target with
  | none =>
      rw [htarget, Option.getD_none, written_self] at h
      exact Or.inl h
  | some target =>
      rw [htarget, Option.getD_some] at h
      rcases written_cases base.status target row.status with hw | hw
      · exact Or.inr (by rw [← hw, h])
      · exact Or.inl (hw.symm.trans h)

/-- After the setup transaction the row has a source, the one it had if it had any. -/
theorem Books.setup (h : Books w world row advanced) {source : SourceName}
    (hsource : row.replay_source = none ∨ row.replay_source = some source) :
    Books w world { row with replay_source := some source } advanced := by
  have hcovers : ∀ m, ({ row with replay_source := some source } : ReplayJob).covers m
      = row.covers m := by
    intro m
    cases m <;> rfl
  have heq : ∀ {source'}, row.replay_source = some source' → source = source' := by
    intro source' hs
    rcases hsource with hnone | hsome
    · rw [hnone] at hs; cases hs
    · rw [hsome] at hs; exact Option.some.inj hs
  refine ⟨⟨h.ledger.inWindow, fun id hid => ?_, h.ledger.last⟩, h.nodup, h.count, fun m => ?_,
    fun hs => ?_⟩
  · exact congrArg some (heq (h.ledger.source id hid))
  · rw [hcovers]
    exact h.advanced m
  · obtain ⟨source', hs', hall⟩ := h.completed hs
    obtain rfl := heq hs'
    exact ⟨source, rfl, fun m hm hms => by rw [hcovers]; exact hall m hm hms⟩

/-- What the update after an event leaves of the data. -/
theorem progress_positions (hsame : SameData row base) (stream : Stream) (event : ReplayEvent)
    (was_dup : Bool) (now : Nat) :
    SamePositions (update_checkpoint row event.message_id stream.source)
      ((WorkerTx.progress stream event was_dup now).body base) := by
  constructor
  · simp only [WorkerTx.body, update_checkpoint_replay_source]
    split <;> exact hsame.source
  · refine update_checkpoint_checkpoint_congr ?_
    split <;> exact hsame.checkpoint
  · rfl

/-- An event is counted in one of the two counters, as the replayer's answer says, and never in
both. -/
theorem progress_count (stream : Stream) (event : ReplayEvent) (was_dup : Bool) (now : Nat) :
    ((WorkerTx.progress stream event was_dup now).body base).events_processed
      + ((WorkerTx.progress stream event was_dup now).body base).events_skipped_dedup
      = base.events_processed + base.events_skipped_dedup + 1 := by
  simp only [WorkerTx.body, update_checkpoint_events_processed,
    update_checkpoint_events_skipped_dedup]
  split
  · exact (Nat.add_assoc _ _ _).symm
  · dsimp only
    omega

/-- Of the window, a row that recorded the event in hand covers that event and what it
covered before. -/
theorem AccountHand.covers_progress {stream : Stream} {event : ReplayEvent}
    (h : AccountHand w world row stream event) (hledger : Ledger w world row)
    {row' : ReplayJob}
    (hsame : SamePositions (update_checkpoint row event.message_id stream.source) row')
    {m : MessageId} (hm : world.InWindow w m) :
    row'.covers m = true ↔ row.covers m = true ∨ m = event.message_id := by
  rw [hsame.covers_iff, hledger.covers_update h.source h.event_source h.fresh]
  constructor
  · rintro (hcov | hle)
    · exact Or.inl hcov
    · exact (h.passed m hm).mp (h.before m hle)
  · rintro (hcov | rfl)
    · exact Or.inl hcov
    · exact Or.inr (Or.inl rfl)

/-- The one transaction that counts. It advances the checkpoint to the event in hand, which the
row did not cover, and adds one; what it covers more than before is that event alone, because
everything of the window before it was covered already. -/
theorem Books.progress (h : Books w world row advanced) {stream : Stream} {event : ReplayEvent}
    (hhand : AccountHand w world row stream event) {row' : ReplayJob}
    (hsame : SamePositions (update_checkpoint row event.message_id stream.source) row')
    (hcount : row'.events_processed + row'.events_skipped_dedup
      = row.events_processed + row.events_skipped_dedup + 1)
    (hcompleted : row'.status = .completed → row.status = .completed) :
    Books w world row' (advanced ++ [event.message_id]) := by
  have hcovers := fun m hm => hhand.covers_progress h.ledger hsame (m := m) hm
  -- an event the row covers already is not yielded again
  have hnot : event.message_id ∉ advanced := by
    intro hmem
    have hcov := ((h.advanced _).mp hmem).2
    rw [hhand.fresh] at hcov
    cases hcov
  refine ⟨(h.ledger.update hhand.source hhand.event_source hhand.inWindow).congr hsame, ?_, ?_,
    fun m => ?_, fun hs => ?_⟩
  · rw [List.nodup_append]
    refine ⟨h.nodup, List.nodup_singleton _, fun m hm m' hm' heq => ?_⟩
    rw [heq, List.mem_singleton.mp hm'] at hm
    exact hnot hm
  · rw [hcount, h.count, List.length_append, List.length_singleton]
  · rw [List.mem_append, List.mem_singleton]
    constructor
    · rintro (hmem | rfl)
      · obtain ⟨hin, hcov⟩ := (h.advanced m).mp hmem
        exact ⟨hin, (hcovers m hin).mpr (Or.inl hcov)⟩
      · exact ⟨hhand.inWindow, (hcovers _ hhand.inWindow).mpr (Or.inr rfl)⟩
    · rintro ⟨hin, hcov⟩
      exact ((hcovers m hin).mp hcov).imp (fun hc => (h.advanced m).mpr ⟨hin, hc⟩) id
  · obtain ⟨source, hsource, hall⟩ := h.completed (hcompleted hs)
    exact ⟨source, (hsame.source.trans update_checkpoint_replay_source).trans hsource,
      fun m hm hms => (hcovers m hm).mpr (Or.inl (hall m hm hms))⟩

/-- **A worker's commit keeps the books.** -/
theorem Books.commit (h : Books w world row advanced) {tx : WorkerTx}
    (hsame : SameData row base) (htx : AccountTx w world row tx) :
    Books w world (flush base (tx.body base) row) (advanced ++ tx.advanced.toList) := by
  have hdata := SameData.flush hsame (tx.body base)
  have hcompleted : (flush base (tx.body base) row).status = .completed →
      row.status = .completed ∨ tx.target = some .completed := completed_of_flush
  -- a transaction that leaves the positions and the counters as it read them
  have hkeep : SamePositions base (tx.body base) →
      (tx.body base).events_processed = base.events_processed →
      (tx.body base).events_skipped_dedup = base.events_skipped_dedup →
      (tx.target = some .completed → AllCovered w world row) → tx.advanced = none →
      Books w world (flush base (tx.body base) row) (advanced ++ tx.advanced.toList) := by
    intro hpos hp hs hall hadv
    rw [hadv, Option.toList_none, List.append_nil]
    refine h.congr ⟨?_, ?_, ?_⟩ ?_ fun hstatus => (hcompleted hstatus).elim h.completed hall
    · rw [hdata.source, hpos.source, hsame.source]
    · rw [hdata.checkpoint, hpos.checkpoint, hsame.checkpoint]
    · rw [hdata.last, hpos.last, hsame.last]
    · rw [hdata.processed, hdata.skipped, hp, hs, hsame.processed, hsame.skipped]
  cases tx with
  | setup source count =>
      simp only [WorkerTx.advanced, Option.toList_none, List.append_nil]
      refine (h.setup htx).congr ⟨hdata.source, ?_, ?_⟩ ?_ fun hs => ?_
      · exact hdata.checkpoint.trans hsame.checkpoint
      · rw [hdata.last]
        exact congrArg _ hsame.last
      · rw [hdata.processed, hdata.skipped]
        exact congrArg₂ _ hsame.processed hsame.skipped
      · rcases hcompleted hs with hs | hs
        · exact (h.setup htx).completed hs
        · cases hs
  | progress stream event was_dup now =>
      have hpos := progress_positions hsame stream event was_dup now
      refine h.progress htx ⟨?_, ?_, ?_⟩ ?_ fun hs => ?_
      · rw [hdata.source, hpos.source]
      · rw [hdata.checkpoint, hpos.checkpoint]
      · rw [hdata.last, hpos.last]
      · rw [hdata.processed, hdata.skipped, progress_count, hsame.processed, hsame.skipped]
      · rcases hcompleted hs with hs | hs
        · exact hs
        · cases hs
  | event_failed event attempts now =>
      exact hkeep ⟨rfl, rfl, rfl⟩ rfl rfl (fun h => by cases h) rfl
  | checkpoint last_id now =>
      refine hkeep ⟨rfl, rfl, ?_⟩ rfl rfl (fun h => by cases h) rfl
      rw [hsame.last]
      exact htx
  | complete stream now => exact hkeep ⟨rfl, rfl, rfl⟩ rfl rfl (fun _ => htx) rfl
  | fail error => exact hkeep ⟨rfl, rfl, rfl⟩ rfl rfl (fun h => by cases h) rfl

/-- **What the worker relies on after its commit.** -/
theorem AccountTx.after_commit {tx : WorkerTx} (h : Books w world row advanced)
    (hsame : SameData row base) (htx : AccountTx w world row tx) (wk : Worker)
    (position : Nat → Nat) :
    AccountPhase w world (flush base (tx.body base) row)
      (wk.after_commit tx (tx.body base) world position).phase := by
  have hdata := (SameData.flush hsame (tx.body base)).symm
  have hbooks := h.commit hsame htx
  cases tx with
  | setup source count =>
      simp only [Worker.after_commit]
      split
      · rename_i stream hopen
        have hledger := hbooks.ledger.congr hdata.positions
        -- the generator has passed what the row covers, as the row is what it was opened on
        refine ⟨hdata, ?_, ?_, fun m _ => ?_⟩
        · rw [← hdata.source, Stream.open_source hopen]
          rfl
        · refine Stream.open_bounded hopen (fun m hcp => ?_) fun offsets p o hcp hget => ?_
          · rcases checkpoint_argument_cases hcp with ⟨id, hid, hlast⟩ | ⟨offsets, hid, _⟩
            · cases hid
              exact hledger.inWindow m (Or.inl hlast)
            · cases hid
          · rcases checkpoint_argument_cases hcp with ⟨id, hid, _⟩ | ⟨offsets', hid, hjob⟩
            · cases hid
            · cases hid
              exact hledger.inWindow _ (Or.inr ⟨offsets, p, o, hjob, hget, rfl⟩)
        · exact (hledger.passed_iff_covers rfl hopen m).trans (hdata.positions.covers_iff m)
      · trivial
  | progress stream event was_dup now =>
      -- the row covers the event in hand from now on, which the generator had passed before
      have hpos := progress_positions hsame stream event was_dup now
      have hpos' : SamePositions (update_checkpoint row event.message_id stream.source)
          (flush base ((WorkerTx.progress stream event was_dup now).body base) row) :=
        ⟨hdata.source.symm.trans hpos.source, hdata.checkpoint.symm.trans hpos.checkpoint,
          by rw [← hdata.last, hpos.last]⟩
      refine ⟨hdata, ?_, AccountHand.bounded htx, fun m hm => ?_⟩
      · rw [hpos'.source, update_checkpoint_replay_source, AccountHand.source htx]
      · exact (AccountHand.passed htx m hm).trans
          (AccountHand.covers_progress htx h.ledger hpos' hm).symm
  | event_failed event attempts now => trivial
  | checkpoint last_id now => trivial
  | complete stream now => trivial
  | fail error => trivial

end

/-! ## The other steps of a worker

Between two commits only the generator moves. Each of its steps either yields an event of the
window, passes none, or ends with all of the window passed. -/

section

variable {w : Window} {world : World} {row : ReplayJob} {stream stream' : Stream} {choice : Nat}

/-- A generator that goes on without yielding has passed nothing new of the window, so the row
still covers what it has passed. -/
theorem AccountStream.more (h : AccountStream w world row stream) (hsorted : world.Sorted)
    (hgood : stream.Good w world) (hs : stream.step w world choice = .more stream') :
    AccountStream w world row stream' := by
  obtain ⟨hbounded, hsource⟩ := h.bounded.step_more hsorted hgood hs
  obtain ⟨_, hpassed⟩ := hgood.step_more hsorted hs
  exact ⟨by rw [hsource]; exact h.source, hbounded,
    fun m hm => (hpassed m hm).trans (h.passed m hm)⟩

/-- A generator that yields has passed one event more. The row is one event behind until that is
recorded, which is what `AccountHand` says. -/
theorem AccountStream.yield (h : AccountStream w world row stream) (hsorted : world.Sorted)
    (hgood : stream.Good w world) {event : ReplayEvent}
    (hs : stream.step w world choice = .yield event stream') :
    AccountHand w world row stream' event := by
  obtain ⟨hbounded, hsource, hevent, hin⟩ := h.bounded.step_yield hsorted hgood hs
  obtain ⟨_, _, hnew, hbefore, hpassed⟩ := hgood.step_yield hsorted hs
  refine ⟨by rw [hsource]; exact h.source, hevent.trans hsource.symm, hbounded, hin, ?_, hbefore,
    fun m hm => (hpassed m hm).trans (or_congr_left (h.passed m hm))⟩
  rw [Bool.eq_false_iff, Ne, ← h.passed _ hin]
  exact hnew

/-- A generator that ends has passed the whole window, so the row covers the whole window, and
`_complete_job` may count on it. -/
theorem AccountStream.done (h : AccountStream w world row stream) (hsorted : world.Sorted)
    (hgood : stream.Good w world) (hs : stream.step w world choice = .done stream') :
    AllCovered w world row :=
  ⟨stream.source, h.source,
    fun m hm hms => (h.passed m hm).mp (h.bounded.step_done hsorted hgood hs hm hms)⟩

/-- **The next piece of a worker's code, unless it is a commit.** -/
theorem AccountPhase.go {cfg : Config} {now : Nat} {wk : Worker} {input : Input} {m : Move}
    (hsorted : world.Sorted) {acked : List MessageId}
    (hsafe : SafePhase cfg.window world acked wk.phase)
    (h : AccountPhase cfg.window world row wk.phase)
    (hnot : ∀ base tx, wk.phase ≠ .writing base tx)
    (hm : wk.go cfg now row world input = some m) :
    AccountPhase cfg.window world row m.worker.phase := by
  cases Worker.went hm with
  | committed base tx hph => exact absurd hph (hnot base tx)
  | read_job => exact SameData.refl row
  | set_up job source hph hsource =>
      rw [hph] at h
      refine ⟨SameData.refl row, ?_⟩
      -- a job that has a source keeps it
      have hsame := h.source
      cases hrow : row.replay_source with
      | none => exact Or.inl hrow
      | some source' =>
          rw [hrow] at hsame
          exact Or.inr (by rw [hrow, hsource, hsame, Option.getD_some])
  | streamed job stream stream' hph hs =>
      rw [hph] at h hsafe
      exact ⟨h.1, h.2.more hsorted hsafe.2.good hs⟩
  | got_event job stream stream' event hph hs =>
      rw [hph] at h hsafe
      exact ⟨h.1, h.2.yield hsorted hsafe.2.good hs⟩
  | stream_ended job stream stream' hph hs =>
      rw [hph] at h hsafe
      exact h.2.done hsorted hsafe.2.good hs
  | shut_down job stream event hph | saw_paused job stream event hph =>
      rw [hph] at h
      exact h.1
  | still_running job stream event hph | may_send job stream event hph
  | sent job stream event attempt hph | answered job stream event attempt hph
  | retried job stream event attempt hph | gave_up job stream event attempt hph =>
      rw [hph] at h
      exact h
  | records_event job stream event was_dup hph =>
      rw [hph] at h
      exact ⟨SameData.refl row, h.2⟩
  | checkpoints job hph =>
      rw [hph] at h
      refine ⟨SameData.refl row, ?_⟩
      simp only [AccountTx, LastProcessedId.toMessageId?_orEmpty]
      rw [SameData.last h]
  | completes stream hph =>
      rw [hph] at h
      exact ⟨SameData.refl row, h⟩
  | records_failure | fails => exact ⟨SameData.refl row, trivial⟩
  | stream_raised | saw_cancelled => trivial

end

/-! ## Runs

With one worker at a time nothing comes between the reading and the commit of a transaction but
requests, and these leave the data alone. The window is fixed as to its contents; what lies
outside may grow, except for a late message from before it in the moment between the seek and
the snapshot. -/

/-- The step adds nothing to the window. -/
def FixedWindow (w : Window) (_ : Sys) : Action → Prop
  | .xadd e => ¬ w.contains e.id.ms
  | .produce _ message => ¬ w.contains message.timestamp
  | _ => True

/-- The step is not a write of a message from before the window to a partition that a
generator has sought already while its high-water snapshot is still to be taken. -/
def NoLateOld (w : Window) (s : Sys) : Action → Prop
  | .produce p message => message.timestamp < w.start_ms →
      ∀ v stream, (s.workers v).phase.stream? = some stream → ¬ stream.Sought p
  | _ => True

/-- The counters account for the checkpoint: they add up to the number of events of the
window at or below it; no event advanced it twice; and when the job is `COMPLETED` they add
up to the number of events of the window. -/
def Accounted (w : Window) (s : Sys) : Prop :=
  (∀ source, s.row.replay_source = none ∨ s.row.replay_source = some source →
    s.row.events_processed + s.row.events_skipped_dedup
      = ((s.world.window_ids w source).filter s.row.covers).length) ∧
  s.advanced.Nodup ∧
  (s.row.status = .completed → ∃ source, s.row.replay_source = some source ∧
    s.row.events_processed + s.row.events_skipped_dedup
      = (s.world.window_ids w source).length)

/-- The invariant of the whole system. -/
structure Accounts (w : Window) (s : Sys) : Prop where
  safe : SafeSys w s
  alone : OnlyLastOwner s
  books : Books w s.world s.row s.advanced
  workers : ∀ v, AccountPhase w s.world s.row (s.workers v).phase

section

variable {cfg : Config} {s t : Sys} {a : Action}

/-- What the invariant says about the committed row. The rest of it, about the workers, is
needed to keep it and says nothing to a reader of the row. -/
theorem Accounts.accounted {w : Window} (h : Accounts w s) : Accounted w s := by
  have hcount : ∀ source, s.row.replay_source = none ∨ s.row.replay_source = some source →
      s.advanced.length = ((s.world.window_ids w source).filter s.row.covers).length := by
    intro source hsource
    -- both lists are without repetition and have the same members
    refine List.Perm.length_eq ((List.perm_ext_iff_of_nodup h.books.nodup
      ((nodup_window_ids h.safe.sorted source).filter _)).mpr fun m => ?_)
    rw [h.books.advanced m, List.mem_filter, mem_window_ids]
    constructor
    · rintro ⟨hin, hcov⟩
      have hs := h.books.ledger.covers_source hcov
      rcases hsource with hnone | hsome
      · rw [hnone] at hs; cases hs
      · rw [hsome] at hs; exact ⟨⟨(Option.some.inj hs).symm, hin⟩, hcov⟩
    · rintro ⟨⟨_, hin⟩, hcov⟩
      exact ⟨hin, hcov⟩
  refine ⟨fun source hsource => h.books.count.trans (hcount source hsource), h.books.nodup,
    fun hs => ?_⟩
  obtain ⟨source, hsource, hall⟩ := h.books.completed hs
  refine ⟨source, hsource, ?_⟩
  rw [h.books.count, hcount source (Or.inr hsource), List.filter_eq_self.mpr]
  intro m hm
  obtain ⟨hms, hin⟩ := mem_window_ids.mp hm
  exact hall m hin hms

/-- The contents of the window do not change. -/
theorem inWindow_of_fixed (hfixed : FixedWindow cfg.window s a) (hs : step cfg s a = some t)
    (m : MessageId) : t.world.InWindow cfg.window m ↔ s.world.InWindow cfg.window m := by
  refine ⟨fun hin => ?_, fun hin => hin.grow (world_grows hs).1⟩
  cases step_took hs with
  | xadd e hnew =>
      cases m with
      | kafka p o => exact hin
      | redis id =>
          obtain ⟨⟨e', he', rfl⟩, hw⟩ := hin
          rcases List.mem_append.mp he' with he' | he'
          · exact ⟨⟨e', he', rfl⟩, hw⟩
          · rw [List.mem_singleton.mp he'] at hw
            exact absurd hw hfixed
  | produce p message hp hm =>
      rcases World.inWindow_of_produce hp hin with hin | ⟨_, hw⟩
      · exact hin
      · exact absurd hw hfixed
  | _ => exact hin

/-- A generator stays bounded. -/
theorem bounded_of_fixed (hfixed : FixedWindow cfg.window s a) (hold : NoLateOld cfg.window s a)
    (hs : step cfg s a = some t) {v : Nat} {stream : Stream}
    (hstream : (s.workers v).phase.stream? = some stream) (hgood : stream.Good cfg.window s.world)
    (h : stream.Bounded cfg.window s.world) : stream.Bounded cfg.window t.world := by
  cases step_took hs with
  | xadd e hnew => exact h.xadd hgood hfixed
  | produce p message hp hm =>
      exact h.produce hgood hp hfixed fun hlt => hold hlt v stream hstream
  | _ => exact h

/-- A generator that may go on satisfies its invariant. -/
theorem SafePhase.good {w : Window} {world : World} {acked : List MessageId} {phase : Phase}
    (h : SafePhase w world acked phase) {stream : Stream} (hstream : phase.stream? = some stream) :
    stream.Good w world := by
  cases phase with
  | writing base tx =>
      cases tx with
      | progress stream' event was_dup now => cases hstream; exact SafeStream.good h.2
      | _ => cases hstream
  | streaming job stream' => cases hstream; exact h.2.good
  | in_hand job stream' event stage => cases hstream; exact h.2.1.good
  | _ => cases hstream

/-- **The next piece of a worker's code keeps the books**, with every other worker idle. -/
theorem Accounts.move {v : Nat} {input : Input} {m : Move} (h : Accounts cfg.window s)
    (hm : (s.workers v).go cfg s.clock s.row s.world input = some m) :
    Books cfg.window s.world (s.move v m).row (s.move v m).advanced ∧
      ∀ u, AccountPhase cfg.window s.world (s.move v m).row ((s.move v m).workers u).phase := by
  have hv : (s.workers v).phase ≠ .idle := by
    intro hidle
    simp only [Worker.go, hidle] at hm
    cases hm
  -- every other worker is idle, so its phase asks nothing of the row
  have hothers : ∀ u, u ≠ v → (s.workers u).phase = .idle := by
    intro u hu
    by_contra hbusy
    exact hu (Option.some.inj ((h.alone u hbusy).symm.trans (h.alone v hv)))
  by_cases hw : ∃ base tx, (s.workers v).phase = .writing base tx
  · -- a commit: the row changes under every worker, and only this one is at work
    obtain ⟨base, tx, hw⟩ := hw
    have hph := h.workers v
    rw [hw] at hph
    simp only [Worker.go, hw, Option.some.injEq] at hm
    subst hm
    refine ⟨h.books.commit hph.1 hph.2, fun u => ?_⟩
    dsimp only [Sys.move]
    by_cases hu : u = v
    · subst hu
      rw [Function.update_self]
      exact AccountTx.after_commit h.books hph.1 hph.2 _ _
    · rw [Function.update_of_ne hu, hothers u hu]
      trivial
  · -- no commit: the row is as it was
    push Not at hw
    obtain ⟨hcommit, hadvanced⟩ := Worker.go_commit hw hm
    simp only [Sys.move, hcommit, hadvanced, Option.toList_none, List.append_nil]
    refine ⟨h.books, fun u => ?_⟩
    by_cases hu : u = v
    · subst hu
      rw [Function.update_self]
      exact AccountPhase.go h.safe.sorted (h.safe.workers u) (h.workers u) hw hm
    · rw [Function.update_of_ne hu]
      exact h.workers u

/-- No request moves the status to `COMPLETED`. -/
theorem completed_of_flush_api {base new row : ReplayJob} (hspec : ApiStatus base new)
    (hc : (flush base new row).status = .completed) : row.status = .completed := by
  by_cases hne : new.status = base.status
  · simp only [flush, hne, written_self] at hc
    exact hc
  · simp only [flush, written_of_ne _ hne] at hc
    have htarget := hspec.target hne
    rw [hc] at htarget
    rcases htarget with h' | h' | h' <;> cases h'

/-- **One step** of a run with one worker at a time keeps the accounts. -/
theorem Accounts.step (h : Accounts cfg.window s) (halone : AcquiredAlone s a)
    (hfixed : FixedWindow cfg.window s a) (hold : NoLateOld cfg.window s a)
    (hs : step cfg s a = some t) : Accounts cfg.window t := by
  have hgap : NoGap cfg.window s a := by
    cases a with
    | produce p message => exact fun hw => absurd hw hfixed
    | _ => trivial
  have hsafe := h.safe.step hgap hs
  have halone' := h.alone.step halone hs
  have hin := inWindow_of_fixed hfixed hs
  have hphase : ∀ v, AccountPhase cfg.window t.world s.row (s.workers v).phase := fun v =>
    (h.workers v).grow hin fun stream hstream hb =>
      bounded_of_fixed hfixed hold hs hstream ((h.safe.workers v).good hstream) hb
  have hbooks := h.books.grow hin
  -- a step that leaves the data of the row and takes no worker's next piece of code
  have hkeep : t.advanced = s.advanced → SameData s.row t.row →
      (t.row.status = .completed → s.row.status = .completed) →
      (∀ v, (t.workers v).phase = (s.workers v).phase ∨ AccountPhase cfg.window t.world t.row
        (t.workers v).phase) → Accounts cfg.window t := by
    intro hadv hsame hstatus hworkers
    refine ⟨hsafe, halone', ?_, fun v => ?_⟩
    · rw [hadv]
      exact hbooks.congr hsame.positions (congrArg₂ _ hsame.processed hsame.skipped)
        fun hc => hbooks.completed (hstatus hc)
    · rcases hworkers v with hv | hv
      · rw [hv]
        exact (hphase v).congr hsame
      · exact hv
  have hquiet : (∀ v input, a ≠ .go v input) → ∀ v,
      (t.workers v).phase = (s.workers v).phase ∨ AccountPhase cfg.window t.world t.row
        (t.workers v).phase := by
    intro hne v
    exact phase_holds
      (Q := fun phase => phase = (s.workers v).phase ∨ AccountPhase cfg.window t.world t.row phase)
      (Or.inr trivial) (Or.inr trivial) (fun _ => Or.inr trivial) hs (Or.inl rfl)
      fun input m ha _ _ => absurd ha (hne v input)
  cases step_took hs with
  | api_commit i tx htx =>
      obtain ⟨hchange, hstatus⟩ := ApiOp.apply_spec tx.accepted
      exact hkeep rfl (SameData.flush_api hchange s.row) (completed_of_flush_api hstatus)
        (hquiet fun _ _ h' => by contradiction)
  | acquire w hidle helig =>
      exact hkeep rfl ⟨rfl, rfl, rfl, rfl, rfl⟩ (fun hc => by contradiction)
        (hquiet fun _ _ h' => by contradiction)
  | renew w =>
      refine hkeep rfl ?_ (fun hc => ?_) (hquiet fun _ _ h' => by contradiction)
      · dsimp only [renewed_row]
        split <;> exact ⟨rfl, rfl, rfl, rfl, rfl⟩
      · dsimp only [renewed_row] at hc
        split at hc <;> exact hc
  | go v input m hm =>
      obtain ⟨hb, hw⟩ := h.move hm
      exact ⟨hsafe, halone', hb, hw⟩
  | _ => exact hkeep rfl (SameData.refl _) id (hquiet fun _ _ h' => by contradiction)

/-- A job that has just been created has nothing to account for. -/
theorem Accounts.initial {speed_factor : Rat} {world : World} {clock : Nat}
    (hsorted : world.Sorted) (w : Window) : Accounts w (Sys.initial speed_factor world clock) := by
  have hnone : ∀ id, ¬ (Sys.initial speed_factor world clock).row.Recorded id := by
    rintro id (hid | ⟨offsets, p, o, hcp, _, _⟩)
    · cases hid
    · cases hcp
  refine ⟨⟨hsorted, fun id hid => absurd hid (hnone id), fun v => trivial⟩,
    fun v hv => absurd rfl hv, ?_, fun v => trivial⟩
  refine ⟨⟨fun id hid => absurd hid (hnone id), fun id hid => absurd hid (hnone id),
    fun p o hlast => by contradiction⟩, List.nodup_nil, rfl, fun m => ?_,
    fun hc => by contradiction⟩
  cases m <;> simp [Sys.initial, ReplayJob.created, ReplayJob.covers]

/-- **Exact accounting.** In every run with one worker at a time over a window whose contents
do not change, and without a late message from before the window, the counters account for
the checkpoint in every committed state. -/
theorem exact_accounting {speed_factor : Rat} {world : World} {clock : Nat}
    {tr : List (Sys × Action)} (hsorted : world.Sorted)
    (hrun : Run (step cfg) (Sys.initial speed_factor world clock) tr s)
    (halone : StepsMeet AcquiredAlone tr) (hfixed : StepsMeet (FixedWindow cfg.window) tr)
    (hold : StepsMeet (NoLateOld cfg.window) tr) :
    (∀ p ∈ tr, Accounted cfg.window p.1) ∧ Accounted cfg.window s := by
  have hC : StepsMeet (fun s a => AcquiredAlone s a ∧ FixedWindow cfg.window s a ∧
      NoLateOld cfg.window s a) tr :=
    fun p hp => ⟨halone p hp, hfixed p hp, hold p hp⟩
  have hstep : ∀ s a t, Accounts cfg.window s →
      (AcquiredAlone s a ∧ FixedWindow cfg.window s a ∧ NoLateOld cfg.window s a) →
      Job.step cfg s a = some t → Accounts cfg.window t :=
    fun s a t h hC hs => h.step hC.1 hC.2.1 hC.2.2 hs
  exact ⟨fun p hp => (hrun.invariant_mem hstep (.initial hsorted _) hC p hp).accounted,
    (hrun.invariant hstep (.initial hsorted _) hC).accounted⟩

/-- Two events of the window, the second sent twice because the worker that sent it first
has died: it is counted once, as a duplicate. -/
theorem exact_accounting_crashed :
    ∃ tr s, Run (step short_config) (Sys.initial 1 two_events 0) tr s ∧
      s.row.status = .completed ∧ s.row.events_processed = 1 ∧ s.row.events_skipped_dedup = 1 ∧
      (∀ p ∈ tr, Accounted short_config.window p.1) ∧ Accounted short_config.window s := by
  have hrun : ∃ tr s,
      Run (step short_config) (Sys.initial 1 two_events 0) tr s ∧
      StepsMeet (fun s a => AcquiredAlone s a ∧ FixedWindow short_config.window s a ∧
        NoLateOld short_config.window s a) tr ∧
      s.row.status = .completed ∧ s.row.events_processed = 1 ∧ s.row.events_skipped_dedup = 1 := by
    exact exists_run_meeting_of_exec (until_crash ++ .crash 0 :: after_crash)
      (ExecMeets.and
        (execMeets_crash (w := 1) (fun _ _ => rfl) (by simp [until_crash]) (by simp [after_crash]))
        (.of_forall (by
          simp [until_crash, after_crash, FixedWindow, NoLateOld, Window.contains, short_config])))
      (by decide)
  obtain ⟨tr, s, hrun, hC, hstatus, hprocessed, hskipped⟩ := hrun
  exact ⟨tr, s, hrun, hstatus, hprocessed, hskipped,
    exact_accounting two_events_sorted hrun (fun p hp => (hC p hp).1)
      (fun p hp => (hC p hp).2.1) (fun p hp => (hC p hp).2.2)⟩

/-- The gap: the empty partition is sought to its end, a message from before the window is
appended, and the snapshot is taken. The message is replayed and counted, though the window
is and remains empty. -/
theorem late_old_event_counted :
    ∃ tr s, Run (step short_config) (Sys.initial 1 empty_world 0) tr s ∧
      StepsMeet AcquiredAlone tr ∧ StepsMeet (FixedWindow short_config.window) tr ∧
      ¬ Accounted short_config.window s := by
  have hrun : ∃ tr s, Run (step short_config) (Sys.initial 1 empty_world 0) tr s ∧
      StepsMeet (fun s a => AcquiredAlone s a ∧ FixedWindow short_config.window s a) tr ∧
      s.row.replay_source = some .kafka ∧
      s.row.events_processed + s.row.events_skipped_dedup = 1 ∧
      s.world.window_ids short_config.window .kafka = [] := by
    exact exists_run_meeting_of_exec
      [.api_read 0 .start, .api_commit 0, .boot 0, .acquire 0,
        .go 0 {}, .go 0 {}, .go 0 {}, .go 0 {}, .go 0 {}, .produce 0 ⟨5, sampleRecord "0"⟩,
        .go 0 {}, .go 0 {}, .go 0 {}, .go 0 {}, .go 0 {},
        .go 0 { success := true }, .go 0 {}, .go 0 {}]
      (ExecMeets.and (execMeets_alone (w := 0) (fun _ _ => rfl) (by simp))
        (.of_forall (by simp [FixedWindow, Window.contains, short_config])))
      (by decide)
  obtain ⟨tr, s, hrun, hC, hsource, hsum, hempty⟩ := hrun
  refine ⟨tr, s, hrun, fun p hp => (hC p hp).1, fun p hp => (hC p hp).2, fun h => ?_⟩
  have hcount := h.1 .kafka (Or.inr hsource)
  rw [hsum, hempty] at hcount
  cases hcount

end

end WalStream.Job

/-
The two replay sources behind one interface.

A worker asks the router for a source and then only sees `stream_events`. Here are the
environment the sources read (the Redis stream and the Kafka topic), the generator of
either source as one type, and the spec lemmas of both stated once: what a freshly opened
generator has passed, and what a step without a `yield`, a `yield`, and the return do to
the messages of the window. `Stream.Good` is the invariant these lemmas rest on, and it
survives every append but one: a message of the window appended to a Kafka partition that
the generator has looked up in vain and not yet sought to its end.
-/
import WalStream.Source.Redis
import WalStream.Source.Kafka

set_option autoImplicit false

namespace WalStream.Source

open Lib

/-! ## The environment

Both logs, whichever the job reads. They are sorted, and grow at their ends. -/

/-- What the sources read. -/
structure World where
  redis : List RedisEntry
  kafka : Topic

/-- Redis ids increase, and timestamps do not decrease within a partition. -/
structure World.Sorted (world : World) : Prop where
  redis : RedisSorted world.redis
  kafka : KafkaSorted world.kafka

/-- A message of the window: a Redis entry by the time in its id, a Kafka message by its
timestamp. -/
def World.InWindow (world : World) (w : Window) : MessageId → Prop
  | .redis id => (∃ e ∈ world.redis, e.id = id) ∧ w.contains id.ms
  | .kafka p o => world.kafka.InWindow w p o

/-- The position lies within the log: what is appended later comes after it. -/
def World.Reached (world : World) : MessageId → Prop
  | .redis id => ∃ e ∈ world.redis, id ≤ e.id
  | .kafka p o => p < world.kafka.length → o < (world.kafka.log p).length

/-- `XADD`. -/
def World.xadd (world : World) (e : RedisEntry) : World :=
  { world with redis := world.redis ++ [e] }

/-- A producer's write. -/
def World.produce (world : World) (p : Nat) (m : KafkaMessage) : World :=
  { world with kafka := world.kafka.produce p m }

/-! ## The generator of either source

The worker of the code holds a `ReplaySource` and does not know which. The first functions here
are those of the abstract class. -/

/-- A `stream_events` generator. -/
inductive Stream
  | redis (stream : RedisStream)
  | kafka (stream : KafkaStream)

/-- `source.stream_events(start_ms, end_ms, checkpoint)` up to where it first reads the logs;
the cached Kafka consumer was left at `position`. -/
def Stream.open (source : SourceName) (world : World) (position : Nat → Nat)
    (checkpoint : Option Checkpoint) : Except StreamError Stream :=
  match source with
  | .redis => (RedisStream.open checkpoint).map .redis
  | .kafka => (KafkaStream.open world.kafka position checkpoint).map .kafka

namespace Stream

/-- The `source_name()` of the source the generator is of. -/
def source : Stream → SourceName
  | .redis _ => .redis
  | .kafka _ => .kafka

/-- The outcome of a generator's step, as that of a `Stream`. -/
def lift {τ : Type} (f : τ → Stream) : StreamStep τ → StreamStep Stream
  | .more next => .more (f next)
  | .yield event next => .yield event (f next)
  | .done next => .done (f next)
  | .raise error => .raise error

/-- One step of the generator. -/
def step (w : Window) (world : World) (choice : Nat) : Stream → StreamStep Stream
  | .redis stream => lift .redis (stream.step w world.redis)
  | .kafka stream => lift .kafka (stream.step w world.kafka choice)

/-- The messages the generator is done with. -/
def Passed : Stream → MessageId → Prop
  | .redis stream, .redis id => stream.Passed id
  | .kafka stream, .kafka p o => stream.Passed p o
  | _, _ => False

/-- The Kafka partitions the generator has looked up in vain and not yet sought. -/
def pending : Stream → List Nat
  | .redis _ => []
  | .kafka stream => stream.pending

/-- The generator has seen the message's place in the log: at its last `XRANGE`, or below
its high-water snapshot. -/
def Visible (world : World) : Stream → MessageId → Prop
  | .redis stream, .redis id => ∃ e ∈ world.redis.take stream.seen, e.id = id
  | .kafka stream, .kafka p o => o < stream.snapshot p
  | _, _ => False

end Stream

/-- `source.count_events(start_ms, end_ms)`. -/
def count_events (w : Window) (world : World) : SourceName → Nat
  | .redis => redis_count_events world.redis w
  | .kafka => kafka_count_events world.kafka w

/-! ## How the environment grows

What is appended changes nothing of what is stored. Each fact on the logs is carried over by one
lemma, and not by one for each kind of append. -/

/-- `world'` is `world` with messages added at the ends of its logs. Stated once, so that each
fact about what is stored need only be shown to survive growth, and not each kind of write. -/
structure World.Grows (world world' : World) : Prop where
  redis : ∃ es, world'.redis = world.redis ++ es ∧
    ∀ e ∈ world.redis, ∀ e' ∈ es, e.id < e'.id
  kafka : ∀ p, world.kafka.log p <+: world'.kafka.log p
  partitions : world'.kafka.length = world.kafka.length

section

variable {world world' : World} {w : Window}

/-- Nothing added. -/
theorem World.Grows.refl (world : World) : world.Grows world :=
  ⟨⟨[], (List.append_nil _).symm, fun _ _ _ h => by contradiction⟩, fun _ => List.prefix_rfl, rfl⟩

/-- An entry is added behind all others, by its id, -/
theorem World.grows_xadd {e : RedisEntry} (hnew : ∀ e' ∈ world.redis, e'.id < e.id) :
    world.Grows (world.xadd e) := by
  refine ⟨⟨[e], rfl, fun e' he' e'' he'' => ?_⟩, fun _ => List.prefix_rfl, rfl⟩
  rw [List.mem_singleton.mp he'']
  exact hnew e' he'

/-- and a message behind those of its partition. -/
theorem World.grows_produce (world : World) (p : Nat) (message : KafkaMessage) :
    world.Grows (world.produce p message) :=
  ⟨⟨[], (List.append_nil _).symm, fun _ _ _ h => by contradiction⟩,
    fun q => world.kafka.log_prefix_produce p q message, world.kafka.length_produce p message⟩

/-- The order of the ids is what Redis guarantees, -/
theorem World.Sorted.xadd {e : RedisEntry} (h : world.Sorted)
    (hnew : ∀ e' ∈ world.redis, e'.id < e.id) : (world.xadd e).Sorted := by
  refine ⟨?_, h.kafka⟩
  refine List.pairwise_append.mpr ⟨h.redis, List.pairwise_singleton _ _, fun a ha b hb => ?_⟩
  rw [List.mem_singleton.mp hb]
  exact hnew a ha

/-- and that of the timestamps what the producers are assumed to keep to. -/
theorem World.Sorted.produce {p : Nat} {message : KafkaMessage} (h : world.Sorted)
    (hp : p < world.kafka.length)
    (hm : ∀ m ∈ world.kafka.log p, m.timestamp ≤ message.timestamp) :
    (world.produce p message).Sorted :=
  ⟨h.redis, h.kafka.produce hp hm⟩

/-- What was reached before the growth still is. -/
theorem World.Reached.grow {m : MessageId} (h : world.Reached m) (hg : world.Grows world') :
    world'.Reached m := by
  cases m with
  | redis id =>
      obtain ⟨e, he, hid⟩ := h
      obtain ⟨es, hes, _⟩ := hg.redis
      exact ⟨e, by rw [hes]; exact List.mem_append_left _ he, hid⟩
  | kafka p o =>
      intro hp
      rw [hg.partitions] at hp
      exact Nat.lt_of_lt_of_le (h hp) (hg.kafka p).length_le

/-- A message of the window remains one. -/
theorem World.InWindow.grow {m : MessageId} (h : world.InWindow w m)
    (hg : world.Grows world') : world'.InWindow w m := by
  cases m with
  | redis id =>
      obtain ⟨⟨e, he, hid⟩, hw⟩ := h
      obtain ⟨es, hes, _⟩ := hg.redis
      exact ⟨⟨e, by rw [hes]; exact List.mem_append_left _ he, hid⟩, hw⟩
  | kafka p o =>
      obtain ⟨m, hm, hw⟩ := h
      obtain ⟨l, hl⟩ := hg.kafka p
      refine ⟨m, ?_, hw⟩
      rw [← hl, List.getElem?_append_left (List.getElem?_eq_some_iff.mp hm).1]
      exact hm

/-- **Appends come last.** A message of the window that was not there before lies beyond
everything reached before. -/
theorem World.Grows.fresh {m : MessageId} (hg : world.Grows world')
    (h : world'.InWindow w m) (hreached : world.Reached m) : world.InWindow w m := by
  cases m with
  | redis id =>
      obtain ⟨⟨e, he, rfl⟩, hw⟩ := h
      obtain ⟨es, hes, hnew⟩ := hg.redis
      rw [hes] at he
      rcases List.mem_append.mp he with he | he
      · exact ⟨⟨e, he, rfl⟩, hw⟩
      · obtain ⟨e', he', hle⟩ := hreached
        exact absurd (StreamId.lt_of_le_of_lt hle (hnew e' he' e he)) (StreamId.lt_irrefl _)
  | kafka p o =>
      have hp : p < world.kafka.length := by
        rw [← hg.partitions]
        exact Topic.InWindow.partition_lt h
      obtain ⟨m, hm, hw⟩ := h
      obtain ⟨l, hl⟩ := hg.kafka p
      rw [← hl, List.getElem?_append_left (hreached hp)] at hm
      exact ⟨m, hm, hw⟩

/-- A message of the window after a producer's write was there before, or is the new one. -/
theorem World.inWindow_of_produce {m : MessageId} {p : Nat} {message : KafkaMessage}
    (hp : p < world.kafka.length) (h : (world.produce p message).InWindow w m) :
    world.InWindow w m ∨
      (m = .kafka p (world.kafka.log p).length ∧ w.contains message.timestamp) := by
  cases m with
  | redis id => exact Or.inl h
  | kafka q o =>
      obtain ⟨m, hm, hw⟩ := h
      rcases Topic.getElem?_produce hp hm with hm | ⟨rfl, rfl, rfl⟩
      · exact Or.inl ⟨m, hm, hw⟩
      · exact Or.inr ⟨rfl, hw⟩

/-- What lies at or before a position within the log does so too. -/
theorem World.Reached.of_atOrBefore {m m' : MessageId} (h : world.Reached m')
    (hle : AtOrBefore m m') : world.Reached m := by
  cases m' with
  | redis id' =>
      cases m with
      | redis id =>
          obtain ⟨e, he, hid⟩ := h
          exact ⟨e, he, StreamId.le_trans (atOrBefore_redis.mp hle) hid⟩
      | kafka p o => cases AtOrBefore.source_eq hle
  | kafka q o' =>
      cases m with
      | redis id => cases AtOrBefore.source_eq hle
      | kafka p o =>
          obtain ⟨rfl, ho⟩ := atOrBefore_kafka.mp hle
          exact fun hp => Nat.lt_of_le_of_lt ho (h hp)

end

/-! ## The invariant of the Kafka generator's seeks -/

namespace KafkaStream

variable {w : Window} {topic : Topic} {st st' : KafkaStream} {choice : Nat}

/-- Up to the snapshot, nothing beyond the end of a log is taken for passed. A checkpoint beyond
the log would make the generator pass messages that are still to be written. -/
def Within (topic : Topic) (st : KafkaStream) : Prop :=
  match st.phase with
  | .opened => ∀ p c, p < topic.length → st.offsets.get? p = some c → c < (topic.log p).length
  | .seeking pending => ∀ p < topic.length, p ∉ pending → st.position p ≤ (topic.log p).length
  | .consuming _ _ _ => True

/-- The partitions still to be sought to their end have no message of the window. This is the
part of the invariant that a producer can break, between the lookup and the seek. -/
def Quiet (w : Window) (topic : Topic) (st : KafkaStream) : Prop :=
  ∀ p ∈ st.pending, ∀ o, ¬ topic.InWindow w p o

/-- While the generator consumes, the two say nothing. -/
theorem within_quiet_of_consuming {ends : List Nat} {completed : Finset Nat}
    {resume : Option Nat} (hph : st.phase = .consuming ends completed resume) :
    Within topic st ∧ Quiet w topic st := by
  refine ⟨by simp only [Within, hph], fun p hp => ?_⟩
  simp only [pending, hph, List.not_mem_nil] at hp

/-- A step keeps the two. -/
theorem within_quiet_step (hinv : Inv topic st) (hw : Within topic st) (hq : Quiet w topic st)
    (hs : st.step w topic choice = .more st') : Within topic st' ∧ Quiet w topic st' := by
  have htook := step_took w choice hinv
  rw [hs] at htook
  cases htook with
  | looked_up hph =>
      simp only [Within, hph] at hw
      refine ⟨fun p hp hnot => ?_, fun p hp o => ?_⟩
      · -- a checkpointed offset is in the log, and so is one `offsets_for_times` answers
        simp only [unsought, List.mem_filter, List.mem_range, hp, true_and, Bool.and_eq_true,
          Option.isNone_iff_eq_none, not_and] at hnot
        simp only [hp, if_true, sought]
        cases hc : st.offsets.get? p with
        | some c => exact hw p c hp hc
        | none =>
            cases hf : offsets_for_times (topic.log p) w.start_ms with
            | some f =>
                rw [offsets_for_times, List.findIdx?_eq_some_iff_getElem] at hf
                exact Nat.le_of_lt hf.1
            | none => exact absurd hf (hnot hc)
      · exact not_inWindow_of_none (pending_after_lookup hp)
  -- a partition that is sought to its end stands within its log
  | sought_end p rest hph =>
      simp only [Within, hph] at hw
      simp only [Quiet, pending, hph] at hq
      refine ⟨fun q hq' hnot => ?_, fun q hq' => hq q (List.mem_cons_of_mem _ hq')⟩
      dsimp only
      by_cases hqp : q = p
      · subst hqp
        rw [Function.update_self]
        exact Nat.le_refl _
      · rw [Function.update_of_ne hqp]
        exact hw q hq' (by simp [hqp, hnot])
  | snapshot _ _ h | checked _ _ _ _ _ h | past _ _ _ _ _ _ h =>
      rw [next_eq (Or.inl h)]
      exact within_quiet_of_consuming rfl
  | waited ends completed hph => exact ⟨hw, hq⟩
  | skipped ends completed o hph => exact within_quiet_of_consuming hph

/-- The snapshot of a generator that returns lies within the logs. -/
theorem snapshot_le_of_done (hinv : Inv topic st) (hs : st.step w topic choice = .done st')
    (p : Nat) : st'.snapshot p ≤ (topic.log p).length := by
  have htook := step_took w choice hinv
  rw [hs] at htook
  cases htook with
  | empty hph => simp only [snapshot, hph, Nat.zero_le]
  | snapshot _ _ h =>
      rw [next_eq (Or.inr h)]
      exact (ends_getD topic p).le
  | checked ends completed q hph _ h =>
      simp only [Inv, hph] at hinv
      rw [next_eq (Or.inr h)]
      exact hinv.ends_le p
  | past ends completed m hm _ _ h =>
      simp only [Inv, hm.phase_eq] at hinv
      rw [next_eq (Or.inr h)]
      exact hinv.ends_le p

/-- What is passed of a partition of the topic is in its log. -/
theorem passed_lt (hinv : Inv topic st) (hw : Within topic st) {p o : Nat}
    (hp : p < topic.length) (h : st.Passed p o) : o < (topic.log p).length := by
  cases hph : st.phase with
  | opened =>
      simp only [Within, hph] at hw
      simp only [Passed, hph] at h
      obtain ⟨c, hc, hoc⟩ := h
      have := hw p c hp hc
      omega
  | seeking ps =>
      simp only [Within, hph] at hw
      simp only [Passed, hph] at h
      have := hw p hp h.1
      omega
  | consuming ends completed resume =>
      simp only [Inv, hph] at hinv
      simp only [Passed, hph] at h
      have hle := hinv.ends_le p
      split at h
      · omega
      · rename_i hnot
        by_cases hr : resume = some p
        · have := (hinv.position_le p hr).2.2
          omega
        · have := hinv.position_lt p hp hnot hr
          omega

end KafkaStream

/-! ## The spec lemmas of a stream

What the modules on jobs use of a generator: a step goes on, yields or returns, with what has
been passed before and after. They are put together from the spec lemmas of the two sources. -/

namespace Stream

variable {w : Window} {world : World} {st st' : Stream} {choice : Nat}

/-- The invariant of a generator: its loop invariant, nothing passed beyond the log, and no
message of the window in a partition that will be sought to its end. Every result about what a
worker has sent rests on this of its generator. -/
def Good (w : Window) (world : World) : Stream → Prop
  | .redis stream => RedisStream.Inv w world.redis stream ∧
      ∀ c, stream.cursor = some c → world.Reached (.redis c)
  | .kafka stream => stream.Inv world.kafka ∧ stream.Within world.kafka ∧
      stream.Quiet w world.kafka

/-- The outcome of a generator's step, read back from that of the `Stream`. Three lemmas, one
for each outcome, so that the spec lemmas need not look into `lift`. -/
theorem more_of_lift {τ : Type} {f : τ → Stream} {outcome : StreamStep τ}
    (h : lift f outcome = .more st') : ∃ next, outcome = .more next ∧ st' = f next := by
  cases outcome with
  | more next => cases h; exact ⟨next, rfl, rfl⟩
  | _ => cases h

/-- The same for a `yield` -/
theorem yield_of_lift {τ : Type} {f : τ → Stream} {outcome : StreamStep τ} {ev : ReplayEvent}
    (h : lift f outcome = .yield ev st') : ∃ next, outcome = .yield ev next ∧ st' = f next := by
  cases outcome with
  | yield event next => cases h; exact ⟨next, rfl, rfl⟩
  | _ => cases h

/-- and for the return. -/
theorem done_of_lift {τ : Type} {f : τ → Stream} {outcome : StreamStep τ}
    (h : lift f outcome = .done st') : ∃ next, outcome = .done next ∧ st' = f next := by
  cases outcome with
  | done next => cases h; exact ⟨next, rfl, rfl⟩
  | _ => cases h

/-- A generator that opens is of the source it was asked for. -/
theorem open_cases {source : SourceName} {position : Nat → Nat} {cp : Option Checkpoint}
    (h : Stream.open source world position cp = .ok st) :
    (∃ stream, source = .redis ∧ RedisStream.open cp = .ok stream ∧ st = .redis stream) ∨
      ∃ stream, source = .kafka ∧ KafkaStream.open world.kafka position cp = .ok stream ∧
        st = .kafka stream := by
  unfold Stream.open at h
  cases source with
  | redis =>
      left
      cases ho : RedisStream.open cp with
      | error e => rw [ho] at h; cases h
      | ok stream => rw [ho] at h; cases h; exact ⟨stream, rfl, rfl, rfl⟩
  | kafka =>
      right
      cases ho : KafkaStream.open world.kafka position cp with
      | error e => rw [ho] at h; cases h
      | ok stream => rw [ho] at h; cases h; exact ⟨stream, rfl, rfl, rfl⟩

/-- What is passed is within the log. -/
theorem Good.reached (h : Good w world st) {m : MessageId} (hm : st.Passed m) :
    world.Reached m := by
  cases st with
  | redis stream =>
      cases m with
      | redis id =>
          obtain ⟨c, hc, hle⟩ := hm
          obtain ⟨e, he, hce⟩ := h.2 c hc
          exact ⟨e, he, StreamId.le_trans hle hce⟩
      | kafka p o => cases hm
  | kafka stream =>
      cases m with
      | redis id => cases hm
      | kafka p o => exact fun hp => KafkaStream.passed_lt h.1 h.2.1 hp hm

/-- A freshly opened generator has passed what its checkpoint covers of its own source, and
nothing else. -/
theorem open_passed {source : SourceName} {position : Nat → Nat} {cp : Option Checkpoint}
    (h : Stream.open source world position cp = .ok st) (m : MessageId) :
    st.Passed m ↔ m.source = source ∧ ∃ c, cp = some c ∧ c.Covers m := by
  obtain ⟨stream, rfl, ho, rfl⟩ | ⟨stream, rfl, ho, rfl⟩ := open_cases h
  · cases m with
    | kafka p o => simp [Passed, MessageId.source]
    | redis id =>
        -- a Redis generator starts with no checkpoint or with a stream id
        obtain ⟨rfl, rfl⟩ | ⟨c, rfl, rfl⟩ := RedisStream.open_cases ho
        · simp [Passed, RedisStream.Passed]
        · simp only [Option.some.injEq, exists_eq_left', Checkpoint.Covers, atOrBefore_redis]
          simp [Passed, RedisStream.Passed, MessageId.source]
  · obtain ⟨hph, hnone, hsome⟩ := KafkaStream.open_spec ho
    cases m with
    | redis id => simp [Passed, MessageId.source]
    | kafka p o =>
        simp only [Passed, KafkaStream.Passed, hph, MessageId.source, true_and]
        cases cp with
        | none => simp [hnone rfl]
        | some c =>
            simp only [Option.some.injEq, exists_eq_left']
            rcases hsome c rfl with hparse | ⟨id, rfl, -, hoffsets⟩
            · obtain rfl | ⟨q, c, rfl, hoffsets⟩ := KafkaStream.parse_checkpoint_cases hparse
              · simp [Checkpoint.Covers]
              · -- a single position says something of its own partition only
                simp only [hoffsets, Dict.get?_set, Dict.get?_empty, Checkpoint.Covers,
                  atOrBefore_kafka]
                by_cases hp : p = q
                · simp [hp]
                · simp [hp]
            · -- nor does a Redis id, which opens on a topic without partitions only
              rw [hoffsets]
              refine ⟨?_, fun hcov => ?_⟩
              · simp
              · cases AtOrBefore.source_eq hcov

/-- It satisfies the invariant if its checkpoint does not reach beyond the log. -/
theorem open_good {source : SourceName} {position : Nat → Nat} {cp : Option Checkpoint}
    (h : Stream.open source world position cp = .ok st)
    (hreach : ∀ c, cp = some c → ∀ m, c.Covers m → world.Reached m) : Good w world st := by
  have hpassed := open_passed h
  obtain ⟨stream, rfl, ho, rfl⟩ | ⟨stream, rfl, ho, rfl⟩ := open_cases h
  · refine ⟨RedisStream.open_inv ho, fun c hc => ?_⟩
    obtain ⟨-, cp', hcp', hcov⟩ := (hpassed (.redis c)).mp ⟨c, hc, StreamId.le_refl c⟩
    exact hreach cp' hcp' _ hcov
  · obtain ⟨hph, _, _⟩ := KafkaStream.open_spec ho
    refine ⟨by simp only [KafkaStream.Inv, hph], ?_, ?_⟩
    · simp only [KafkaStream.Within, hph]
      intro p c hp hc
      have hpc : Passed (.kafka stream) (.kafka p c) := by
        simp only [Passed, KafkaStream.Passed, hph]
        exact ⟨c, hc, Nat.le_refl c⟩
      obtain ⟨-, cp', hcp', hcov⟩ := (hpassed (.kafka p c)).mp hpc
      exact hreach cp' hcp' _ hcov hp
    · intro p hp
      simp only [KafkaStream.pending, hph, List.not_mem_nil] at hp

/-- **A step that goes on.** It keeps the invariant and passes no message of the window. -/
theorem Good.step_more (hsorted : world.Sorted) (h : Good w world st)
    (hs : st.step w world choice = .more st') :
    Good w world st' ∧ ∀ m, world.InWindow w m → (st'.Passed m ↔ st.Passed m) := by
  cases st with
  | redis stream =>
      obtain ⟨stream', hstep, rfl⟩ := more_of_lift hs
      obtain ⟨hinv, hcursor⟩ := RedisStream.step_more h.1 hstep
      refine ⟨⟨hinv, fun c hc => h.2 c (by rw [← hcursor]; exact hc)⟩, fun m _ => ?_⟩
      cases m with
      | redis id => simp only [Passed, RedisStream.Passed, hcursor]
      | kafka p o => exact Iff.rfl
  | kafka stream =>
      obtain ⟨stream', hstep, rfl⟩ := more_of_lift hs
      obtain ⟨hinv, hwithin, hquiet⟩ := h
      obtain ⟨hmore, _, hpassed⟩ :=
        KafkaStream.step_silent hsorted.kafka hinv hquiet (Or.inl hstep)
      obtain ⟨hwithin', hquiet'⟩ := KafkaStream.within_quiet_step hinv hwithin hquiet hstep
      refine ⟨⟨hmore hstep, hwithin', hquiet'⟩, fun m hm => ?_⟩
      cases m with
      | redis id => exact Iff.rfl
      | kafka p o => exact hpassed p o hm

/-- **Return.** Every message of the window the generator could see is passed. -/
theorem Good.step_done (hsorted : world.Sorted) (h : Good w world st)
    (hs : st.step w world choice = .done st') {m : MessageId} (hm : world.InWindow w m)
    (hvis : st'.Visible world m) : st.Passed m := by
  cases st with
  | redis stream =>
      obtain ⟨stream', hstep, rfl⟩ := done_of_lift hs
      -- the last `XRANGE` came back empty, so no entry it saw is outstanding
      obtain ⟨_, _, hnil⟩ := RedisStream.step_done h.1 hstep
      cases m with
      | redis id =>
          obtain ⟨e, he, rfl⟩ := hvis
          by_contra hnot
          have hadmits := (RedisStream.bound_admits_iff hm.2.1).mpr hnot
          have hmem : e ∈ xrange (world.redis.take stream'.seen) (stream.bound w) w.end_ms :=
            mem_xrange.mpr ⟨he, hadmits, hm.2.2⟩
          rw [hnil] at hmem
          cases hmem
      | kafka p o => exact hvis.elim
  | kafka stream =>
      obtain ⟨stream', hstep, rfl⟩ := done_of_lift hs
      obtain ⟨_, hdone, hpassed⟩ :=
        KafkaStream.step_silent hsorted.kafka h.1 h.2.2 (Or.inr hstep)
      cases m with
      | redis id => exact hvis.elim
      | kafka p o => exact (hpassed p o hm).mp (hdone hstep p o hvis)

/-- **`yield`.** The event is of the log and was not passed; with it, everything at or
before it is passed, and it is the only message of the window that is newly passed. -/
theorem Good.step_yield (hsorted : world.Sorted) (h : Good w world st) {ev : ReplayEvent}
    (hs : st.step w world choice = .yield ev st') :
    Good w world st' ∧ world.Reached ev.message_id ∧ ¬ st.Passed ev.message_id ∧
      (∀ m, AtOrBefore m ev.message_id → st'.Passed m) ∧
      ∀ m, world.InWindow w m → (st'.Passed m ↔ st.Passed m ∨ m = ev.message_id) := by
  cases st with
  -- the cursor is now at the entry that was yielded
  | redis stream =>
      obtain ⟨stream', hstep, rfl⟩ := yield_of_lift hs
      obtain ⟨hinv, e, hmem, rfl, hcursor, hnot, hpassed, honly⟩ :=
        RedisStream.passed_step_yield hsorted.redis h.1 hstep
      have hreached : world.Reached (.redis e.id) := ⟨e, hmem, StreamId.le_refl _⟩
      refine ⟨⟨hinv, fun c hc => ?_⟩, hreached, hnot, fun m hm => ?_, fun m hm => ?_⟩
      · rw [hcursor, Option.some.injEq] at hc
        rw [← hc]
        exact hreached
      · cases m with
        | redis id => exact (hpassed id).mpr (atOrBefore_redis.mp hm)
        | kafka p o => cases AtOrBefore.source_eq hm
      · cases m with
        | redis id =>
            obtain ⟨⟨e', he', rfl⟩, hwin⟩ := hm
            simp only [Passed, MessageId.redis.injEq]
            exact honly e' he' hwin
        | kafka p o => simp [Passed]
  -- the position of its partition is now behind the message, and no other has moved
  | kafka stream =>
      obtain ⟨stream', hstep, rfl⟩ := yield_of_lift hs
      obtain ⟨hinv, o, m, rfl, hm, _, _, _, hbefore, hafter⟩ :=
        KafkaStream.step_yield h.1 hstep
      obtain ⟨_, _, _, _, _, _, hst'⟩ := KafkaStream.fetched_of_yield h.1 hstep
      obtain ⟨hwithin, hquiet⟩ :=
        @KafkaStream.within_quiet_of_consuming w world.kafka stream' _ _ _ (by rw [hst'])
      refine ⟨⟨hinv, hwithin, hquiet⟩, fun _ => (List.getElem?_eq_some_iff.mp hm).1,
        fun hp => Nat.lt_irrefl _ ((hbefore o).mp hp), fun m' hm' => ?_, fun m' _ => ?_⟩
      · cases m' with
        | redis id => cases AtOrBefore.source_eq hm'
        | kafka p o' =>
            obtain ⟨rfl, hle⟩ := atOrBefore_kafka.mp hm'
            refine (hafter p o').mpr ?_
            rcases Nat.eq_or_lt_of_le hle with rfl | hlt
            · exact Or.inr ⟨rfl, rfl⟩
            · exact Or.inl ((hbefore o').mpr hlt)
      · cases m' with
        | redis id => simp [Passed]
        | kafka p o' => simp only [Passed, hafter, MessageId.kafka.injEq]

/-! ### Growth -/

/-- The invariant survives growth, unless that puts a message of the window into a
partition the generator will seek to its end. -/
theorem Good.grow {world' : World} (h : Good w world st) (hg : world.Grows world')
    (hquiet : ∀ p ∈ st.pending, ∀ o, world'.InWindow w (.kafka p o) →
      world.InWindow w (.kafka p o)) : Good w world' st := by
  cases st with
  | redis stream =>
      obtain ⟨es, hes, _⟩ := hg.redis
      refine ⟨?_, fun c hc => (h.2 c hc).grow hg⟩
      rw [hes]
      exact h.1.append
  | kafka stream =>
      obtain ⟨hinv, hwithin, hq⟩ := h
      refine ⟨hinv.grow hg.partitions hg.kafka, ?_, fun p hp o hin => hq p hp o (hquiet p hp o hin)⟩
      have hle : ∀ p, (world.kafka.log p).length ≤ (world'.kafka.log p).length :=
        fun p => (hg.kafka p).length_le
      unfold KafkaStream.Within at hwithin ⊢
      rw [hg.partitions]
      -- the logs only get longer, in whichever phase the generator is
      split at hwithin
      · exact fun p c hp hc => Nat.lt_of_lt_of_le (hwithin p c hp hc) (hle p)
      · exact fun p hp hnot => Nat.le_trans (hwithin p hp hnot) (hle p)
      · trivial

/-- What the generator has seen is in the logs. -/
def Seen (world : World) : Stream → Prop
  | .redis stream => stream.seen ≤ world.redis.length
  | .kafka stream => ∀ p, stream.snapshot p ≤ (world.kafka.log p).length

/-- A generator that has returned has seen a part of the logs as they are. -/
theorem Good.seen_of_done (h : Good w world st) (hs : st.step w world choice = .done st') :
    st'.Seen world := by
  cases st with
  | redis stream =>
      obtain ⟨stream', hstep, rfl⟩ := done_of_lift hs
      exact (RedisStream.step_done h.1 hstep).2.1
  | kafka stream =>
      obtain ⟨stream', hstep, rfl⟩ := done_of_lift hs
      exact KafkaStream.snapshot_le_of_done h.1 hstep

/-- And it stays a part of them. -/
theorem Seen.grow {world' : World} (h : st.Seen world) (hg : world.Grows world') :
    st.Seen world' := by
  cases st with
  | redis stream =>
      obtain ⟨es, hes, _⟩ := hg.redis
      simp only [Seen, hes, List.length_append]
      exact Nat.le_add_right_of_le h
  | kafka stream => exact fun p => (h p).trans (hg.kafka p).length_le

/-- What the generator has seen lies within the log. -/
theorem Seen.reached (h : st.Seen world) {m : MessageId} (hvis : st.Visible world m) :
    world.Reached m := by
  cases st with
  | redis stream =>
      cases m with
      | redis id =>
          obtain ⟨e, he, rfl⟩ := hvis
          exact ⟨e, List.mem_of_mem_take he, StreamId.le_refl _⟩
      | kafka p o => cases hvis
  | kafka stream =>
      cases m with
      | redis id => cases hvis
      | kafka p o => exact fun _ => Nat.lt_of_lt_of_le hvis (h p)

/-- Growth adds nothing to what the generator has seen. So what it has passed by its return is
all there is to show, however late its worker commits. -/
theorem Seen.visible_of_grow {world' : World} {m : MessageId} (h : st.Seen world)
    (hg : world.Grows world') (hvis : st.Visible world' m) : st.Visible world m := by
  cases st with
  | redis stream =>
      cases m with
      | redis id =>
          obtain ⟨es, hes, _⟩ := hg.redis
          simp only [Visible, hes, List.take_append_of_le_length h] at hvis
          exact hvis
      | kafka p o => exact hvis
  | kafka stream => cases m <;> exact hvis

end Stream

end WalStream.Source

/-
Over a window whose contents are fixed, a generator yields exactly them.

`Source.Stream` says what a step passes. Here is the other half: what it yields is of the
window, and by the time it returns it has seen all of the window. `Stream.Bounded` is the
invariant for both. It survives every append outside the window but one: a message from
before the window, written to a Kafka partition that has been sought already while the
high-water snapshot is still to be taken. The generator compares a message only with the
end of the window, so it would yield that one.
-/
import WalStream.Source.Stream

set_option autoImplicit false

namespace WalStream.Source

open Lib

/-! ## The contents of the window

The events of the window are listed by their ids, each once. The list is what the counters of a
job are compared with, so it is computed from the logs alone and knows nothing of the generator. -/

/-- The message at an offset lies in the window. -/
def offsetInWindow (w : Window) (log : List KafkaMessage) (o : Nat) : Bool :=
  match log[o]? with
  | some m => decide (w.contains m.timestamp)
  | none => false

/-- The ids of a source's events in the window. -/
def World.window_ids (world : World) (w : Window) : SourceName → List MessageId
  | .redis => (world.redis.filter fun e => decide (w.contains e.id.ms)).map fun e => .redis e.id
  | .kafka => (List.range world.kafka.length).flatMap fun p =>
      ((List.range (world.kafka.log p).length).filter (offsetInWindow w (world.kafka.log p))).map
        (.kafka p)

section

variable {world world' : World} {w : Window}

/-- The test on offsets, as what it says of the message. -/
theorem offsetInWindow_iff {p o : Nat} :
    offsetInWindow w (world.kafka.log p) o = true ↔ world.InWindow w (.kafka p o) := by
  simp only [offsetInWindow, World.InWindow, Topic.InWindow]
  cases (world.kafka.log p)[o]? with
  | none => simp
  | some m => simp

/-- The ids listed are those of the window. As a list they can be counted, which the accounts of
a job are about. -/
theorem mem_window_ids {source : SourceName} {m : MessageId} :
    m ∈ world.window_ids w source ↔ m.source = source ∧ world.InWindow w m := by
  cases source with
  | redis =>
      simp only [World.window_ids, List.mem_map, List.mem_filter, decide_eq_true_eq]
      constructor
      · rintro ⟨e, ⟨he, hw⟩, rfl⟩
        exact ⟨rfl, ⟨e, he, rfl⟩, hw⟩
      · rintro ⟨hsource, hin⟩
        cases m with
        | redis id =>
            obtain ⟨⟨e, he, rfl⟩, hw⟩ := hin
            exact ⟨e, ⟨he, hw⟩, rfl⟩
        | kafka p o => cases hsource
  | kafka =>
      simp only [World.window_ids, List.mem_flatMap, List.mem_range, List.mem_map, List.mem_filter]
      constructor
      · rintro ⟨p, hp, o, ⟨ho, hin⟩, rfl⟩
        exact ⟨rfl, offsetInWindow_iff.mp hin⟩
      · rintro ⟨hsource, hin⟩
        cases m with
        | redis id => cases hsource
        | kafka p o =>
            exact ⟨p, Topic.InWindow.partition_lt hin, o,
              ⟨Topic.InWindow.lt_length hin, offsetInWindow_iff.mpr hin⟩, rfl⟩

/-- No id is listed twice: ids increase in a stream, and offsets in a partition. -/
theorem nodup_window_ids (hsorted : world.Sorted) (source : SourceName) :
    (world.window_ids w source).Nodup := by
  cases source with
  | redis =>
      simp only [World.window_ids, List.Nodup, List.pairwise_map]
      refine (hsorted.redis.sublist List.filter_sublist).imp ?_
      intro a b hab heq
      rw [MessageId.redis.inj heq] at hab
      exact StreamId.lt_irrefl _ hab
  | kafka =>
      simp only [World.window_ids]
      rw [List.nodup_flatMap]
      refine ⟨fun p _ => ?_, ?_⟩
      · refine List.Nodup.map ?_ (List.nodup_range.filter _)
        intro a b hab
        cases hab
        rfl
      · refine List.nodup_range.imp ?_
        intro p q hpq m hm hm'
        obtain ⟨o, _, rfl⟩ := List.mem_map.mp hm
        obtain ⟨o', _, heq⟩ := List.mem_map.mp hm'
        cases heq
        exact hpq rfl

end

/-! ## The Redis generator

Two things are kept apart: that nothing from before the window is still to come, which is all
that is needed for what is yielded to be of the window, and that nothing of the window is out of
reach, which is needed for the end. An entry that is added to the window breaks the second and
not the first. -/

namespace RedisStream

variable {w : Window} {stream : List RedisEntry} {st st' : RedisStream}

/-- The cursor is not before the window, and a batch in hand was fetched when the window
was complete. -/
def Bounded (w : Window) (stream : List RedisEntry) (st : RedisStream) : Prop :=
  (∀ c, st.cursor = some c → w.start_ms ≤ c.ms) ∧
    (st.batch ≠ none → ∀ e ∈ stream, w.contains e.id.ms → e ∈ stream.take st.seen)

/-- The cursor is not before the window. -/
def AfterStart (w : Window) (st : RedisStream) : Prop :=
  ∀ c, st.cursor = some c → w.start_ms ≤ c.ms

/-- What lies beyond the bound is not before the window. -/
theorem AfterStart.start_le (h : AfterStart w st) {id : StreamId}
    (hid : (st.bound w).admits id = true) : w.start_ms ≤ id.ms := by
  unfold bound at hid
  cases hc : st.cursor with
  | none =>
      rw [hc] at hid
      simpa [RangeStart.admits] using hid
  | some c =>
      rw [hc] at hid
      simp only [RangeStart.admits, decide_eq_true_eq] at hid
      exact (h c hc).trans (StreamId.ms_le_of_le (StreamId.le_of_lt hid))

/-- The cursor only moves with a `yield`. -/
theorem AfterStart.step_more (h : AfterStart w st) (hinv : Inv w stream st)
    (hs : st.step w stream = .more st') : AfterStart w st' := by
  intro c hc
  rw [(RedisStream.step_more hinv hs).2] at hc
  exact h c hc

/-- An entry that is yielded lies behind the cursor and not past the end of the window, so it is
of the window. -/
theorem AfterStart.step_yield {ev : ReplayEvent} (hsorted : RedisSorted stream)
    (hinv : Inv w stream st) (h : AfterStart w st) (hs : st.step w stream = .yield ev st') :
    AfterStart w st' ∧ ∃ e ∈ stream, ev.message_id = .redis e.id ∧ w.contains e.id.ms := by
  obtain ⟨_, e, he, rfl, hcursor, _⟩ := RedisStream.step_yield hsorted hinv hs
  obtain ⟨hmem, hadmits, hend⟩ := mem_xrange.mp he
  have hstart := h.start_le hadmits
  refine ⟨fun c hc => ?_, e, hmem, rfl, hstart, hend⟩
  rw [hcursor, Option.some.injEq] at hc
  rw [← hc]
  exact hstart

/-- A page is fetched from the stream as it is, so all of the window that is behind the cursor
is on it or after it. -/
theorem Bounded.step_more (h : Bounded w stream st) (hs : st.step w stream = .more st') :
    Bounded w stream st' := by
  unfold step at hs
  split at hs
  · dsimp only at hs
    split at hs
    · cases hs
    · cases hs
      refine ⟨h.1, fun _ e he _ => ?_⟩
      dsimp only
      rw [List.take_length]
      exact he
  · cases hs
  · split at hs
    · cases hs
    · cases hs
      exact ⟨h.1, fun hne => absurd rfl hne⟩

/-- The same with the batch that is left. -/
theorem Bounded.step_yield {ev : ReplayEvent} (hsorted : RedisSorted stream)
    (hinv : Inv w stream st) (h : Bounded w stream st) (hs : st.step w stream = .yield ev st') :
    Bounded w stream st' ∧ ∃ e ∈ stream, ev.message_id = .redis e.id ∧ w.contains e.id.ms := by
  have hbatch : st.batch ≠ none ∧ st'.seen = st.seen := by
    unfold step at hs
    split at hs
    · dsimp only at hs
      split at hs <;> cases hs
    · rename_i hb
      cases hs
      exact ⟨by rw [hb]; exact Option.some_ne_none _, rfl⟩
    · split at hs <;> cases hs
  obtain ⟨hafter, hin⟩ := AfterStart.step_yield hsorted hinv h.1 hs
  refine ⟨⟨hafter, fun _ => ?_⟩, hin⟩
  rw [hbatch.2]
  exact h.2 hbatch.1

/-- When the generator returns it has seen all of the window. -/
theorem Bounded.step_done (h : Bounded w stream st) (hs : st.step w stream = .done st')
    {e : RedisEntry} (he : e ∈ stream) (hw : w.contains e.id.ms) : e ∈ stream.take st'.seen := by
  unfold step at hs
  split at hs
  · dsimp only at hs
    split at hs
    · cases hs
      dsimp only
      rw [List.take_length]
      exact he
    · cases hs
  · cases hs
  · rename_i hb
    split at hs
    · cases hs
      exact h.2 (by rw [hb]; exact Option.some_ne_none _) e he hw
    · cases hs

/-- An entry outside the window changes nothing. -/
theorem Bounded.append {e : RedisEntry} (h : Bounded w stream st)
    (hseen : st.seen ≤ stream.length) (he : ¬ w.contains e.id.ms) :
    Bounded w (stream ++ [e]) st := by
  refine ⟨h.1, fun hne e' he' hw => ?_⟩
  rw [List.take_append_of_le_length hseen]
  rcases List.mem_append.mp he' with he' | he'
  · exact h.2 hne e' he' hw
  · rw [List.mem_singleton.mp he'] at hw
    exact absurd hw he

end RedisStream

/-! ## The Kafka generator

The same two, partition by partition. Before the snapshot a partition may be sought or not, and
a message written in between counts against it in one case only; from the snapshot on, what
producers write is above it and no longer matters. -/

namespace KafkaStream

variable {w : Window} {topic : Topic} {st st' : KafkaStream} {choice : Nat}

/-- From the position of partition `p` on, and below `limit`, nothing is before the
window. -/
def FromStart (w : Window) (topic : Topic) (st : KafkaStream) (p : Nat) (limit : Nat) : Prop :=
  ∀ o m, st.position p ≤ o → o < limit → (topic.log p)[o]? = some m → w.start_ms ≤ m.timestamp

/-- The checkpointed offsets are of the window; a partition that has been sought has nothing
before the window to come; and the snapshot was taken when the window was complete. -/
def Bounded (w : Window) (topic : Topic) (st : KafkaStream) : Prop :=
  match st.phase with
  | .opened => ∀ p c, st.offsets.get? p = some c → topic.InWindow w p c
  | .seeking pending =>
      ∀ p < topic.length, p ∉ pending → st.FromStart w topic p (topic.log p).length
  | .consuming ends completed _ =>
      (∀ p, p ∉ completed → st.FromStart w topic p (ends.getD p 0)) ∧
        ∀ p o, topic.InWindow w p o → o < ends.getD p 0

/-- The part of the bounds that producers only break before the snapshot: the generator has
nothing before the window to come. -/
def AfterStart (w : Window) (topic : Topic) (st : KafkaStream) : Prop :=
  match st.phase with
  | .opened => ∀ p c, st.offsets.get? p = some c → topic.InWindow w p c
  | .seeking pending =>
      ∀ p < topic.length, p ∉ pending → st.FromStart w topic p (topic.log p).length
  | .consuming ends completed _ => ∀ p, p ∉ completed → st.FromStart w topic p (ends.getD p 0)

/-- The bounds are that, and a snapshot above all of the window. -/
theorem bounded_iff : Bounded w topic st ↔ AfterStart w topic st ∧
    ∀ ends completed resume, st.phase = .consuming ends completed resume →
      ∀ p o, topic.InWindow w p o → o < ends.getD p 0 := by
  cases hph : st.phase with
  | opened => simp [Bounded, AfterStart, hph]
  | seeking pending => simp [Bounded, AfterStart, hph]
  | consuming ends completed resume =>
      simp only [Bounded, AfterStart, hph, KafkaPhase.consuming.injEq]
      refine and_congr_right fun _ => ⟨?_, fun h => h ends completed resume ⟨rfl, rfl, rfl⟩⟩
      rintro h _ _ _ ⟨rfl, rfl, rfl⟩
      exact h

/-- Messages after one that is not before the window are not either. -/
theorem start_le_of_later (hsorted : KafkaSorted topic) {p o o' : Nat} {m m' : KafkaMessage}
    (hm : (topic.log p)[o]? = some m) (hstart : w.start_ms ≤ m.timestamp) (ho : o ≤ o')
    (hm' : (topic.log p)[o']? = some m') : w.start_ms ≤ m'.timestamp := by
  obtain ⟨hlt, rfl⟩ := List.getElem?_eq_some_iff.mp hm
  obtain ⟨hlt', rfl⟩ := List.getElem?_eq_some_iff.mp hm'
  rcases Nat.eq_or_lt_of_le ho with rfl | ho
  · exact hstart
  · exact hstart.trans (List.pairwise_iff_getElem.mp (hsorted p) _ _ hlt hlt' ho)

/-- A partition sought by its checkpoint or by `offsets_for_times` starts in the window. -/
theorem fromStart_sought (hsorted : KafkaSorted topic) (hph : st.phase = .opened)
    (h : AfterStart w topic st) {p : Nat} (hp : p < topic.length) (hnot : p ∉ st.unsought w topic)
    {position : Nat → Nat} (hposition : position p = st.sought w topic p) {o : Nat}
    {m : KafkaMessage} (ho : position p ≤ o) (hm : (topic.log p)[o]? = some m) :
    w.start_ms ≤ m.timestamp := by
  simp only [AfterStart, hph] at h
  rw [hposition] at ho
  -- the checkpointed message is of the window, and so is what follows it
  cases hc : st.offsets.get? p with
  | some c =>
      simp only [sought, hc] at ho
      obtain ⟨m', hm', hw⟩ := h p c hc
      exact start_le_of_later hsorted hm' hw.1 (by omega) hm
  | none =>
      cases hf : offsets_for_times (topic.log p) w.start_ms with
      | some f =>
          simp only [sought, hc, hf] at ho
          rw [offsets_for_times, List.findIdx?_eq_some_iff_getElem] at hf
          obtain ⟨hlen, hstart, _⟩ := hf
          exact start_le_of_later hsorted (List.getElem?_eq_getElem hlen)
            (of_decide_eq_true hstart) ho hm
      | none =>
          refine absurd ?_ hnot
          simp only [unsought, List.mem_filter, List.mem_range, hp, hc, hf, Option.isNone_none,
            Bool.and_self, and_self]

/-- The end of a round changes the phase alone. -/
theorem afterStart_of_next {ends : List Nat} {completed : Finset Nat}
    (hfrom : ∀ p, p ∉ completed → st.FromStart w topic p (ends.getD p 0))
    (hs : st.next topic ends completed = .more st' ∨ st.next topic ends completed = .done st') :
    AfterStart w topic st' := by
  rw [next_eq hs]
  exact hfrom

/-- Moving one partition does not bring anything from before the window into sight on the
others. -/
theorem FromStart.advance {p q o limit : Nat} (h : st.FromStart w topic p limit) (hpq : p ≠ q) :
    (st.advance q o).FromStart w topic p limit := by
  intro o' m ho hlt hm
  simp only [KafkaStream.advance] at ho
  rw [Function.update_of_ne hpq] at ho
  exact h o' m ho hlt hm

/-- A step without a `yield` brings nothing from before the window into sight. -/
theorem AfterStart.step_silent (hsorted : KafkaSorted topic) (hinv : Inv topic st)
    (h : AfterStart w topic st)
    (hs : st.step w topic choice = .more st' ∨ st.step w topic choice = .done st') :
    AfterStart w topic st' := by
  have htook := step_took w choice hinv
  generalize st.step w topic choice = outcome at htook hs
  cases htook with
  | empty hph htopic =>
      obtain rfl : st = st' := by simpa using hs
      exact h
  -- sought by time or by the checkpoint, and so not before the window
  | looked_up hph =>
      simp only [StreamStep.more.injEq, reduceCtorEq, or_false] at hs
      subst hs
      intro p hp hnot o m ho _ hm
      refine fromStart_sought hsorted hph h hp hnot ?_ ho hm
      exact if_pos hp
  | sought_end p rest hph =>
      simp only [StreamStep.more.injEq, reduceCtorEq, or_false] at hs
      subst hs
      simp only [AfterStart, hph] at h
      intro q hq hnot o m ho hlt hm
      dsimp only at ho
      by_cases hqp : q = p
      · -- a partition at its end has nothing to come
        subst hqp
        rw [Function.update_self] at ho
        exact absurd hlt (Nat.not_lt.mpr ho)
      · rw [Function.update_of_ne hqp] at ho
        exact h q hq (by simp [hqp, hnot]) o m ho hlt hm
  -- nothing is moved
  | snapshot hph _ hnext =>
      simp only [AfterStart, hph] at h
      refine afterStart_of_next (fun p _ o m ho hlt hm => ?_) (by rw [hnext]; exact hs)
      rw [ends_getD] at hlt
      by_cases hp : p < topic.length
      · exact h p hp List.not_mem_nil o m ho hlt hm
      · rw [Topic.log_of_length_le (by omega)] at hm
        cases hm
  | checked ends completed q hph _ hnext =>
      simp only [AfterStart, hph] at h
      exact afterStart_of_next (fun p hp => h p fun hmem => hp (mem_mark.mpr (Or.inl hmem)))
        (by rw [hnext]; exact hs)
  | waited ends completed hph hdel =>
      obtain rfl : st = st' := by simpa using hs
      exact h
  -- the position of a completed partition moves, and of these nothing is said
  | skipped ends completed o hph hc hdel =>
      simp only [StreamStep.more.injEq, reduceCtorEq, or_false] at hs
      subst hs
      simp only [AfterStart, hph] at h
      simp only [AfterStart, advance, hph]
      exact fun p hp => (h p hp).advance (by rintro rfl; exact hp hc)
  -- a partition is completed by its first message past the window
  | past ends completed m hm hend _ hnext =>
      simp only [AfterStart, hm.phase_eq] at h
      refine afterStart_of_next (fun p hp => ?_) (by rw [hnext]; exact hs)
      rw [Finset.mem_insert, not_or] at hp
      exact (h p hp.2).advance hp.1
  | yielded => simp at hs

/-- The event of a `yield` is of the window. -/
theorem AfterStart.step_yield {ev : ReplayEvent} (hinv : Inv topic st)
    (h : AfterStart w topic st) (hs : st.step w topic choice = .yield ev st') :
    AfterStart w topic st' ∧ ∃ p o, ev.message_id = .kafka p o ∧ topic.InWindow w p o := by
  obtain ⟨ends, completed, m, hm, hend, rfl, rfl⟩ := fetched_of_yield hinv hs
  simp only [AfterStart, hm.phase_eq] at h
  have hstart := h choice hm.not_completed _ m (Nat.le_refl _) hm.position_lt hm.message_eq
  refine ⟨fun p hp => ?_, choice, _, rfl, m, hm.message_eq, hstart, hend⟩
  by_cases hpc : p = choice
  · subst hpc
    intro o m' ho hlt hm'
    simp only [advance] at ho
    rw [Function.update_self] at ho
    exact h p hp o m' (by omega) hlt hm'
  · exact (h p hp).advance hpc

/-- Once taken, the snapshot stays. -/
theorem snapshot_of_step (hinv : Inv topic st)
    (hs : st.step w topic choice = .more st' ∨ st.step w topic choice = .done st')
    {ends : List Nat} {completed : Finset Nat} {resume : Option Nat}
    (hph' : st'.phase = .consuming ends completed resume) :
    ends = topic.map end_offset ∨ ∃ completed resume, st.phase = .consuming ends completed resume := by
  have htook := step_took w choice hinv
  generalize st.step w topic choice = outcome at htook hs
  -- the end of a round, with the snapshot `ends'`
  have hround : ∀ {st₀ : KafkaStream} {ends' : List Nat} {completed' : Finset Nat},
      st₀.next topic ends' completed' = .more st' ∨ st₀.next topic ends' completed' = .done st' →
      ends' = ends := by
    intro st₀ ends' completed' h
    rw [next_eq h, KafkaPhase.consuming.injEq] at hph'
    exact hph'.1
  cases htook with
  | empty hph | waited _ _ hph =>
      obtain rfl : st = st' := by simpa using hs
      exact Or.inr ⟨_, _, hph'⟩
  | looked_up hph | sought_end p rest hph =>
      simp only [StreamStep.more.injEq, reduceCtorEq, or_false] at hs
      subst hs
      cases hph'
  | snapshot hph _ hnext => exact Or.inl (hround (by rw [hnext]; exact hs)).symm
  | checked ends' completed' q hph _ hnext =>
      obtain rfl := hround (by rw [hnext]; exact hs)
      exact Or.inr ⟨_, _, hph⟩
  | skipped ends' completed' o hph =>
      simp only [StreamStep.more.injEq, reduceCtorEq, or_false] at hs
      subst hs
      exact Or.inr ⟨_, _, hph'⟩
  | past ends' completed' m hm _ _ hnext =>
      obtain rfl := hround (by rw [hnext]; exact hs)
      exact Or.inr ⟨_, _, hm.phase_eq⟩
  | yielded => simp at hs

/-- A step without a `yield` keeps the bounds. -/
theorem Bounded.step_silent (hsorted : KafkaSorted topic) (hinv : Inv topic st)
    (h : Bounded w topic st)
    (hs : st.step w topic choice = .more st' ∨ st.step w topic choice = .done st') :
    Bounded w topic st' := by
  obtain ⟨hafter, hall⟩ := bounded_iff.mp h
  refine bounded_iff.mpr ⟨hafter.step_silent hsorted hinv hs, fun ends completed resume hph => ?_⟩
  rcases snapshot_of_step hinv hs hph with rfl | ⟨_, _, hph⟩
  · intro p o hin
    rw [ends_getD]
    exact hin.lt_length
  · exact hall _ _ _ hph

/-- The event of a `yield` is of the window, and the bounds are kept. -/
theorem Bounded.step_yield {ev : ReplayEvent} (hinv : Inv topic st) (h : Bounded w topic st)
    (hs : st.step w topic choice = .yield ev st') :
    Bounded w topic st' ∧ ∃ p o, ev.message_id = .kafka p o ∧ topic.InWindow w p o := by
  obtain ⟨hafter, hall⟩ := bounded_iff.mp h
  obtain ⟨hafter', hin⟩ := hafter.step_yield hinv hs
  refine ⟨bounded_iff.mpr ⟨hafter', ?_⟩, hin⟩
  obtain ⟨ends, completed, m, hm, -, -, rfl⟩ := fetched_of_yield hinv hs
  rintro _ _ _ ⟨⟩
  exact hall _ _ _ hm.phase_eq

/-- When the generator returns, all of the window is below its snapshot. -/
theorem Bounded.step_done (hsorted : KafkaSorted topic) (hinv : Inv topic st)
    (h : Bounded w topic st) (hs : st.step w topic choice = .done st') {p o : Nat}
    (hin : topic.InWindow w p o) : o < st'.snapshot p := by
  have hbounded := h.step_silent hsorted hinv (Or.inr hs)
  obtain ⟨-, -, htopic⟩ | ⟨ends, completed, hph⟩ := consuming_of_done hinv hs
  · -- an empty topic has no window
    have hp := hin.partition_lt
    rw [htopic] at hp
    cases hp
  · simp only [Bounded, hph] at hbounded
    simp only [snapshot, hph]
    exact hbounded.2 p o hin

/-- Partition `p` has been sought, and the snapshot is still to be taken. -/
def Sought (st : KafkaStream) (p : Nat) : Prop :=
  ∃ pending, st.phase = .seeking pending ∧ p ∉ pending

/-- A new message changes nothing, unless it is from before the window and goes to a
partition that is already sought while the snapshot is not yet taken. -/
theorem AfterStart.produce {p : Nat} {m : KafkaMessage} (h : AfterStart w topic st)
    (hinv : Inv topic st) (hp : p < topic.length)
    (hold : m.timestamp < w.start_ms → ¬ st.Sought p) : AfterStart w (topic.produce p m) st := by
  unfold AfterStart at h ⊢
  split
  · rename_i hph
    rw [hph] at h
    intro q c hc
    obtain ⟨m', hm', hw⟩ := h q c hc
    obtain ⟨l, hl⟩ := topic.log_prefix_produce p q m
    refine ⟨m', ?_, hw⟩
    rw [← hl, List.getElem?_append_left (List.getElem?_eq_some_iff.mp hm').1]
    exact hm'
  -- an old message in a partition that is not yet sought will be skipped by its seek
  · rename_i pending hph
    rw [hph] at h
    rw [Topic.length_produce]
    intro q hq hnot o m' ho _ hm'
    rcases Topic.getElem?_produce hp hm' with hm' | ⟨rfl, _, rfl⟩
    · exact h q hq hnot o m' ho (List.getElem?_eq_some_iff.mp hm').1 hm'
    · by_contra hlt
      exact hold (Nat.not_le.mp hlt) ⟨pending, hph, hnot⟩
  -- after the snapshot the new message lies beyond it
  · rename_i ends completed resume hph
    simp only [Inv, hph] at hinv
    rw [hph] at h
    intro q hq o m' ho hlt hm'
    rcases Topic.getElem?_produce hp hm' with hm' | ⟨rfl, rfl, rfl⟩
    · exact h q hq o m' ho hlt hm'
    · exact absurd hlt (Nat.not_lt.mpr (hinv.ends_le q))

/-- A message outside the window keeps the bounds as well. -/
theorem Bounded.produce {p : Nat} {m : KafkaMessage} (h : Bounded w topic st)
    (hinv : Inv topic st) (hp : p < topic.length) (hout : ¬ w.contains m.timestamp)
    (hold : m.timestamp < w.start_ms → ¬ st.Sought p) : Bounded w (topic.produce p m) st := by
  obtain ⟨hafter, hall⟩ := bounded_iff.mp h
  refine bounded_iff.mpr ⟨hafter.produce hinv hp hold, fun ends completed resume hph q o hin => ?_⟩
  obtain ⟨m', hm', hw⟩ := hin
  rcases Topic.getElem?_produce hp hm' with hm' | ⟨_, _, rfl⟩
  · exact hall ends completed resume hph q o ⟨m', hm', hw⟩
  · exact absurd hw hout

end KafkaStream

/-! ## The generator of either source

What the job's modules use. They hold a generator without knowing its source, and each lemma is
that of the one source or of the other. -/

namespace Stream

variable {w : Window} {world : World} {st st' : Stream} {choice : Nat}

/-- What the generator has still to yield is of the window, and once it has looked at the
end of its logs, all of the window is below it. -/
def Bounded (w : Window) (world : World) : Stream → Prop
  | .redis stream => stream.Bounded w world.redis
  | .kafka stream => stream.Bounded w world.kafka

/-- What the generator has still to yield is of the window. -/
def AfterStart (w : Window) (world : World) : Stream → Prop
  | .redis stream => stream.AfterStart w
  | .kafka stream => stream.AfterStart w world.kafka

/-- What is needed for the safety of a generator is weaker than what is needed for its coverage,
and survives more. -/
theorem Bounded.afterStart (h : st.Bounded w world) : st.AfterStart w world := by
  cases st with
  | redis stream => exact h.1
  | kafka stream => exact (KafkaStream.bounded_iff.mp h).1

/-- Partition `p` has been sought, and the snapshot is still to be taken. -/
def Sought (p : Nat) : Stream → Prop
  | .redis _ => False
  | .kafka stream => stream.Sought p

/-- A generator reads the source it was opened on. -/
theorem open_source {source : SourceName} {position : Nat → Nat} {cp : Option Checkpoint}
    (h : Stream.open source world position cp = .ok st) : st.source = source := by
  obtain ⟨stream, rfl, -, rfl⟩ | ⟨stream, rfl, -, rfl⟩ := open_cases h
  · rfl
  · rfl

/-- A generator is bounded if the positions of its checkpoint are of the window. -/
theorem open_bounded {source : SourceName} {position : Nat → Nat} {cp : Option Checkpoint}
    (h : Stream.open source world position cp = .ok st)
    (hid : ∀ m, cp = some (.id m) → world.InWindow w m)
    (hjson : ∀ offsets p o, cp = some (.json offsets) → offsets.get? p = some o →
      world.InWindow w (.kafka p o)) : st.Bounded w world := by
  obtain ⟨stream, rfl, ho, rfl⟩ | ⟨stream, rfl, ho, rfl⟩ := open_cases h
  · -- nothing is read yet, so only the cursor has to be of the window
    obtain ⟨rfl, rfl⟩ | ⟨c, rfl, rfl⟩ := RedisStream.open_cases ho
    · exact ⟨fun _ hc => by contradiction, fun hne => absurd rfl hne⟩
    · refine ⟨fun c' hc => ?_, fun hne => absurd rfl hne⟩
      rw [Option.some.injEq] at hc
      rw [← hc]
      exact (hid _ rfl).2.1
  · -- the offsets are those of the map, or the one of the single id
    obtain ⟨hph, hnone, hsome⟩ := KafkaStream.open_spec ho
    simp only [Bounded, KafkaStream.Bounded, hph]
    intro p o hget
    cases cp with
    | none =>
        rw [hnone rfl, Dict.get?_empty] at hget
        cases hget
    | some c =>
        rcases hsome c rfl with hparse | ⟨id, -, -, hoffsets⟩
        · obtain rfl | ⟨q, o', rfl, hoffsets⟩ := KafkaStream.parse_checkpoint_cases hparse
          · exact hjson _ p o rfl hget
          · rw [hoffsets, Dict.get?_set] at hget
            split at hget
            · rename_i hpq
              cases hget
              rw [hpq]
              exact hid _ rfl
            · rw [Dict.get?_empty] at hget
              cases hget
        · rw [hoffsets, Dict.get?_empty] at hget
          cases hget

/-- **A step that goes on.** Behind the two cases are the two sources' own lemmas. -/
theorem Bounded.step_more (hsorted : world.Sorted) (hgood : st.Good w world)
    (h : st.Bounded w world) (hs : st.step w world choice = .more st') :
    st'.Bounded w world ∧ st'.source = st.source := by
  cases st with
  | redis stream =>
      obtain ⟨stream', hstep, rfl⟩ := more_of_lift hs
      exact ⟨RedisStream.Bounded.step_more h hstep, rfl⟩
  | kafka stream =>
      obtain ⟨stream', hstep, rfl⟩ := more_of_lift hs
      exact ⟨KafkaStream.Bounded.step_silent hsorted.kafka hgood.1 h (Or.inl hstep), rfl⟩

/-- **`yield`.** The event is of the window. -/
theorem Bounded.step_yield (hsorted : world.Sorted) (hgood : st.Good w world)
    (h : st.Bounded w world) {ev : ReplayEvent} (hs : st.step w world choice = .yield ev st') :
    st'.Bounded w world ∧ st'.source = st.source ∧ ev.message_id.source = st.source ∧
      world.InWindow w ev.message_id := by
  cases st with
  | redis stream =>
      obtain ⟨stream', hstep, rfl⟩ := yield_of_lift hs
      obtain ⟨hbounded, e, he, hid, hw⟩ :=
        RedisStream.Bounded.step_yield hsorted.redis hgood.1 h hstep
      rw [hid]
      exact ⟨hbounded, rfl, rfl, ⟨e, he, rfl⟩, hw⟩
  | kafka stream =>
      obtain ⟨stream', hstep, rfl⟩ := yield_of_lift hs
      obtain ⟨hbounded, p, o, hid, hin⟩ := KafkaStream.Bounded.step_yield hgood.1 h hstep
      rw [hid]
      exact ⟨hbounded, rfl, rfl, hin⟩

/-- **Return.** Every event of the window of the generator's source is passed. -/
theorem Bounded.step_done (hsorted : world.Sorted) (hgood : st.Good w world)
    (h : st.Bounded w world) (hs : st.step w world choice = .done st') {m : MessageId}
    (hm : world.InWindow w m) (hsource : m.source = st.source) : st.Passed m := by
  refine hgood.step_done hsorted hs hm ?_
  cases st with
  | redis stream =>
      obtain ⟨stream', hstep, rfl⟩ := done_of_lift hs
      cases m with
      | redis id =>
          obtain ⟨⟨e, he, rfl⟩, hw⟩ := hm
          exact ⟨e, RedisStream.Bounded.step_done h hstep he hw, rfl⟩
      | kafka p o => cases hsource
  | kafka stream =>
      obtain ⟨stream', hstep, rfl⟩ := done_of_lift hs
      cases m with
      | redis id => cases hsource
      | kafka p o =>
          exact KafkaStream.Bounded.step_done hsorted.kafka hgood.1 h hstep hm

/-- An entry outside the window is not of the Kafka generator's concern, and changes nothing for
that of Redis. -/
theorem Bounded.xadd {e : RedisEntry} (h : st.Bounded w world) (hgood : st.Good w world)
    (he : ¬ w.contains e.id.ms) : st.Bounded w (world.xadd e) := by
  cases st with
  | redis stream => exact RedisStream.Bounded.append h hgood.1.seen_le he
  | kafka stream => exact h

/-- The one write that is excluded is the one the generator would yield though it is not of the
window. -/
theorem Bounded.produce {p : Nat} {m : KafkaMessage} (h : st.Bounded w world)
    (hgood : st.Good w world) (hp : p < world.kafka.length) (hout : ¬ w.contains m.timestamp)
    (hold : m.timestamp < w.start_ms → ¬ st.Sought p) : st.Bounded w (world.produce p m) := by
  cases st with
  | redis stream => exact h
  | kafka stream => exact KafkaStream.Bounded.produce h hgood.1 hp hout hold

/-- The weaker invariant, step by step -/
theorem AfterStart.step_more (hsorted : world.Sorted) (hgood : st.Good w world)
    (h : st.AfterStart w world) (hs : st.step w world choice = .more st') :
    st'.AfterStart w world := by
  cases st with
  | redis stream =>
      obtain ⟨stream', hstep, rfl⟩ := more_of_lift hs
      exact RedisStream.AfterStart.step_more h hgood.1 hstep
  | kafka stream =>
      obtain ⟨stream', hstep, rfl⟩ := more_of_lift hs
      exact KafkaStream.AfterStart.step_silent hsorted.kafka hgood.1 h (Or.inl hstep)

/-- and event by event. -/
theorem AfterStart.step_yield (hsorted : world.Sorted) (hgood : st.Good w world)
    (h : st.AfterStart w world) {ev : ReplayEvent} (hs : st.step w world choice = .yield ev st') :
    st'.AfterStart w world ∧ world.InWindow w ev.message_id := by
  cases st with
  | redis stream =>
      obtain ⟨stream', hstep, rfl⟩ := yield_of_lift hs
      obtain ⟨hafter, e, he, hid, hw⟩ :=
        RedisStream.AfterStart.step_yield hsorted.redis hgood.1 h hstep
      rw [hid]
      exact ⟨hafter, ⟨e, he, rfl⟩, hw⟩
  | kafka stream =>
      obtain ⟨stream', hstep, rfl⟩ := yield_of_lift hs
      obtain ⟨hafter, p, o, hid, hin⟩ := KafkaStream.AfterStart.step_yield hgood.1 h hstep
      rw [hid]
      exact ⟨hafter, hin⟩

/-- No entry of the stream breaks it, and of the messages only a late one from before the
window. -/
theorem AfterStart.xadd {e : RedisEntry} (h : st.AfterStart w world) :
    st.AfterStart w (world.xadd e) := by
  cases st with
  | redis stream => exact h
  | kafka stream => exact h

/-- The condition on writes is the same. Writes into the window break the coverage and not this. -/
theorem AfterStart.produce {p : Nat} {m : KafkaMessage} (h : st.AfterStart w world)
    (hgood : st.Good w world) (hp : p < world.kafka.length)
    (hold : m.timestamp < w.start_ms → ¬ st.Sought p) : st.AfterStart w (world.produce p m) := by
  cases st with
  | redis stream => exact h
  | kafka stream => exact KafkaStream.AfterStart.produce h hgood.1 hp hold

end Stream

end WalStream.Source

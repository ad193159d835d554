/-
What `count_events` says of what `stream_events` yields.

Over a source whose contents do not change, the Redis source counts the entries it yields.
The Kafka source takes the difference of two offsets per partition, the first at or after
`start_ms` and the first at or after `end_ms`. So it counts the messages before `end_ms`
alone, and none of a partition that has no message at or after `end_ms`: its comment calls
the count approximate.
-/
import WalStream.Source.KafkaWindow
import WalStream.Source.RedisWindow

set_option autoImplicit false

namespace WalStream.Source

open Lib

/-! ## Redis

Counting is one `XRANGE` over the window, and streaming pages through the same range, so over a
stream that stays as it is they see the same entries. -/

namespace RedisWindow

/-- The source does not change. -/
def Fixed (_ : State) : Action → Prop
  | .pull => True
  | _ => False

instance (s : State) : DecidablePred (Fixed s)
  | .pull => isTrue trivial
  | .xadd _ | .trim _ => isFalse id

section

variable {w : Window} {stream : List RedisEntry} {st : RedisStream} {s t : State} {a : Action}

/-- Nothing was added or trimmed, and the generator has seen it all once it has returned. -/
structure Unchanged (stream : List RedisEntry) (s : State) : Prop where
  history : s.history = stream
  trimmed : s.trimmed = 0
  seen : s.seen = stream ∨ (s.source.batch = none ∧ s.returned = false)

/-- The other steps of a run are excluded by the condition, so only the generator's own are
left. -/
theorem Unchanged.step (h : Unchanged stream s) (hfixed : Fixed s a) (hs : step w s a = some t) :
    Unchanged stream t := by
  cases a with
  | xadd e => exact absurd hfixed id
  | trim n => exact absurd hfixed id
  | pull =>
      obtain ⟨-, hpulled⟩ := pull_cases hs
      cases hpulled with
      | empty hb => exact ⟨h.history, h.trimmed, Or.inl h.history⟩
      | fetched hb => exact ⟨h.history, h.trimmed, Or.inl h.history⟩
      | yielded _ _ _ hb | short _ hb | full _ hb =>
          -- the page in hand came from an earlier `XRANGE`
          refine ⟨h.history, h.trimmed, Or.inl (h.seen.resolve_right ?_)⟩
          rw [hb]
          rintro ⟨hnone, -⟩
          cases hnone

/-- **The Redis count is exact.** -/
theorem length_yielded_eq_count_events (hopen : RedisStream.open none = .ok st)
    (hsorted : RedisSorted stream) {tr : List (State × Action)}
    (hrun : Run (RedisWindow.step w) (State.initial stream 0 st) tr s)
    (hfixed : StepsMeet Fixed tr) (hret : s.returned = true) :
    s.yielded.length = redis_count_events stream w := by
  have hsame : Unchanged stream s := hrun.invariant (fun _ _ _ hI hC hs => hI.step hC hs)
    ⟨rfl, rfl, Or.inr ⟨by cases hopen; rfl, rfl⟩⟩ hfixed
  have hgrows : StepsMeet Untrimmed tr := by
    rintro ⟨s', a⟩ hp
    have := hfixed _ hp
    cases a <;> trivial
  have hpaging : Paging w (st.bound w) s := hrun.invariant
    (fun _ _ _ hI hC hs => hI.step hC hs) (Paging.initial hopen hsorted)
    (untrimmed_of_run hrun hgrows)
  have hseen : s.seen = stream := by
    rcases hsame.seen with hseen | ⟨-, hnot⟩
    · exact hseen
    · rw [hret] at hnot
      cases hnot
  rw [hpaging.yielded_eq.2 hret, List.length_map, hseen]
  cases hopen
  rfl

end

end RedisWindow

/-! ## Kafka

Counting subtracts offsets that were looked up by time: from the first message at or after the
start to the first at or after the end. Messages at the very end of the window are streamed and
not counted, and a partition with nothing from the end on counts for nothing. -/

namespace KafkaWindow

/-- The source does not change. -/
def Fixed (_ : State) : Action → Prop
  | .pull _ => True
  | .produce _ _ => False

instance (s : State) : DecidablePred (Fixed s)
  | .pull _ => isTrue trivial
  | .produce _ _ => isFalse id

/-- What the offsets of a partition count: the messages before `end_ms`, if there is one at
or after it. -/
def countedAt (w : Window) (log : List KafkaMessage) (o : Nat) : Bool :=
  match log[o]? with
  | some m => decide (m.timestamp < w.end_ms) && log.any fun m' => decide (w.end_ms ≤ m'.timestamp)
  | none => false

/-- The event is one that `count_events` counts. -/
def counted (w : Window) (topic : Topic) (ev : ReplayEvent) : Bool :=
  match ev.message_id with
  | .kafka p o => countedAt w (topic.log p) o
  | .redis _ => false

section

variable {w : Window} {topic : Topic} {log : List KafkaMessage} {s : State}

/-- An offset is counted if its message is before `end_ms` and some message of the partition is
not. The second part is what makes the count of a partition that ends within the window zero. -/
theorem countedAt_iff {m : KafkaMessage} {o : Nat} (hm : log[o]? = some m) :
    countedAt w log o = true ↔
      m.timestamp < w.end_ms ∧ ∃ m' ∈ log, w.end_ms ≤ m'.timestamp := by
  simp [countedAt, hm]

/-- Of a partition with a message at or after `end_ms`, the offsets below the first such are
counted. -/
theorem countedAt_eq_of_some {e o : Nat} (hsorted : log.Pairwise fun a b => a.timestamp ≤ b.timestamp)
    (he : offsets_for_times log w.end_ms = some e) (ho : o < log.length) :
    countedAt w log o = decide (o < e) := by
  have hm : log[o]? = some log[o] := List.getElem?_eq_getElem ho
  have hlater : ∃ m' ∈ log, w.end_ms ≤ m'.timestamp := by
    rw [offsets_for_times, List.findIdx?_eq_some_iff_getElem] at he
    obtain ⟨hlt, hfirst, -⟩ := he
    exact ⟨log[e], List.getElem_mem hlt, of_decide_eq_true hfirst⟩
  have hle := le_iff_of_offsets_for_times hsorted he hm
  rw [Bool.eq_iff_iff, countedAt_iff hm, decide_eq_true_eq]
  constructor
  · rintro ⟨hlt, -⟩
    omega
  · intro hlt
    exact ⟨by omega, hlater⟩

/-- Of any other partition, nothing is counted. -/
theorem countedAt_eq_of_none {o : Nat} (he : offsets_for_times log w.end_ms = none) :
    countedAt w log o = false := by
  rw [Bool.eq_false_iff]
  intro hcounted
  cases hm : log[o]? with
  | none => simp [countedAt, hm] at hcounted
  | some m =>
      obtain ⟨-, m', hm', hle⟩ := (countedAt_iff hm).mp hcounted
      rw [offsets_for_times, List.findIdx?_eq_none_iff] at he
      have := he m' hm'
      simp only [decide_eq_false_iff_not] at this
      exact this hle

/-- The events of a partition that are counted, as offsets. -/
theorem countP_expected (p : Nat) :
    (expected none w (topic.log p) p).countP (counted w topic)
      = (List.range (end_offset (topic.log p))).countP fun o =>
          countedAt w (topic.log p) o && (inRange none w (topic.log p) p o && notPast w (topic.log p) o) := by
  rw [expected, List.countP_filterMap, List.countP_filter]
  refine List.countP_congr fun o ho => ?_
  rw [eventAt, List.getElem?_eq_getElem (List.mem_range.mp ho)]
  rfl

/-- **The count of one partition.** -/
theorem countP_expected_eq (hsorted : KafkaSorted topic) (p : Nat) :
    (expected none w (topic.log p) p).countP (counted w topic)
      = match offsets_for_times (topic.log p) w.start_ms, offsets_for_times (topic.log p) w.end_ms with
        | some s, some e => e - s
        | _, _ => 0 := by
  rw [countP_expected, List.countP_eq_length_filter]
  have hnone : (∀ o < end_offset (topic.log p), (countedAt w (topic.log p) o &&
      (inRange none w (topic.log p) p o && notPast w (topic.log p) o)) = false) →
      ((List.range (end_offset (topic.log p))).filter fun o => countedAt w (topic.log p) o &&
        (inRange none w (topic.log p) p o && notPast w (topic.log p) o)).length = 0 := by
    intro hnone
    rw [List.length_eq_zero_iff, List.filter_eq_nil_iff]
    intro o ho
    rw [hnone o (List.mem_range.mp ho)]
    exact Bool.false_ne_true
  cases hs : offsets_for_times (topic.log p) w.start_ms with
  | none => exact hnone fun o _ => by simp [inRange, checkpointed, hs]
  | some f =>
      cases he : offsets_for_times (topic.log p) w.end_ms with
      | none => exact hnone fun o _ => by rw [countedAt_eq_of_none he, Bool.false_and]
      | some e =>
          -- in range from `f` on, counted below `e`, and what is counted is not past the end
          have hfilter : (List.range (end_offset (topic.log p))).filter (fun o =>
              countedAt w (topic.log p) o &&
                (inRange none w (topic.log p) p o && notPast w (topic.log p) o))
              = (List.range (end_offset (topic.log p))).filter fun o =>
                decide (f ≤ o) && decide (o < e) := by
            refine List.filter_congr fun o ho => ?_
            have hlt := List.mem_range.mp ho
            have hm : (topic.log p)[o]? = some (topic.log p)[o] := List.getElem?_eq_getElem hlt
            have hle := le_iff_of_offsets_for_times (hsorted p) he hm
            rw [countedAt_eq_of_some (hsorted p) he hlt, notPast_of_getElem? hm]
            simp only [inRange, checkpointed, hs]
            by_cases hoe : o < e
            · have hpast : (topic.log p)[o].timestamp ≤ w.end_ms := by omega
              simp [hoe, hpast]
            · simp [hoe]
          have hen : e ≤ end_offset (topic.log p) := by
            rw [offsets_for_times, List.findIdx?_eq_some_iff_getElem] at he
            exact he.1.le
          by_cases hfe : f ≤ e
          · rw [hfilter, filter_range_eq_range' hfe hen (fun o _ ho => decide_eq_true ho)
              (fun o ho _ => decide_eq_false (by omega)), List.length_range']
          · have hzero : e - f = 0 := by omega
            dsimp only
            rw [hfilter, hzero, List.length_eq_zero_iff, List.filter_eq_nil_iff]
            intro o _
            simp only [Bool.and_eq_true, decide_eq_true_eq, not_and]
            omega

/-- The events of a partition are those of its number. -/
theorem isFrom_eq {p q : Nat} {ev : ReplayEvent} (hp : isFrom p ev = true) :
    isFrom q ev = decide (q = p) := by
  by_cases hq : isFrom q ev = true
  · rw [hq, decide_eq_true (isFrom_inj hq hp)]
  · rw [Bool.not_eq_true] at hq
    rw [hq]
    refine (decide_eq_false ?_).symm
    rintro rfl
    rw [hp] at hq
    cases hq

/-- **The Kafka count** is the number of the yielded events that are before `end_ms`, in a
partition with a message at or after it. -/
theorem countP_yielded_eq_count_events {position : Nat → Nat} {st : KafkaStream}
    (hopen : KafkaStream.open topic position none = .ok st) (hsorted : KafkaSorted topic)
    {tr : List (State × Action)} (hrun : Run (step w) (State.initial topic st) tr s)
    (hfixed : StepsMeet Fixed tr) (hret : s.returned = true) :
    s.yielded.countP (counted w topic) = kafka_count_events topic w := by
  have hafter : StepsMeet AfterSnapshot tr := by
    rintro ⟨s', a⟩ hp
    have := hfixed _ hp
    cases a with
    | pull choice => trivial
    | produce p m => exact absurd this id
  obtain ⟨st', hopen', hphase, hoff⟩ := open_checkpointed topic position
    (fun id (h : (none : Option Checkpoint) = some (.id (.redis id))) => by cases h)
  rw [hopen, Except.ok.injEq] at hopen'
  subst hopen'
  have hI := inv_of_run hsorted hphase hoff hrun hafter
  rw [countP_eq_sum_filter (n := topic.length) (c := isFrom) (fun ev hev => by
    obtain ⟨p, hp, hfrom⟩ := hI.from_topic ev hev
    exact ⟨p, hp, fun q => isFrom_eq hfrom⟩), kafka_count_events,
    sum_map_eq_sum_range (d := [])]
  refine Finset.sum_congr rfl fun p _ => ?_
  have hcount := countP_expected_eq (w := w) hsorted p
  rw [← hI.yieldedFrom_eq hret p] at hcount
  exact hcount

end

end KafkaWindow

end WalStream.Source

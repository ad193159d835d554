/-
The records of a window.

What a generator yields is an id and the record stored under it. `World.history` lists the
records of some tables that a window of a source holds, in the order of the ids where these
are ordered: all of them in Redis, those of one partition in Kafka, and the producer keeps the
records of one table in one partition.
-/
import WalStream.Source.Coverage

set_option autoImplicit false

namespace WalStream.Source

open Lib

/-- The record is stored under the id. -/
def World.Has (world : World) : MessageId → ChangeRecord → Prop
  | .redis id, r => ∃ e ∈ world.redis, e.id = id ∧ e.record = r
  | .kafka p o, r => ∃ m, (world.kafka.log p)[o]? = some m ∧ m.value = r

/-- The record of an offset, if it lies in the window and is of one of the tables. -/
def recordAt (w : Window) (own : String → Bool) (log : List KafkaMessage) (o : Nat) :
    Option ChangeRecord :=
  match log[o]? with
  | some m => if w.contains m.timestamp ∧ own m.value.table = true then some m.value else none
  | none => none

/-- The records of the tables `own` in the window of a source, with their ids. A list, and
not a set, since what is replayed is replayed in its order, and a record may be there more
than once. -/
def World.history (world : World) (w : Window) (own : String → Bool) :
    SourceName → List (MessageId × ChangeRecord)
  | .redis => (world.redis.filter fun e => decide (w.contains e.id.ms) && own e.record.table).map
      fun e => (.redis e.id, e.record)
  | .kafka => (List.range world.kafka.length).flatMap fun p =>
      (List.range (world.kafka.log p).length).filterMap fun o =>
        (recordAt w own (world.kafka.log p) o).map fun r => (.kafka p o, r)

section

variable {world world' : World} {w : Window} {own : String → Bool} {m : MessageId}
  {r r' : ChangeRecord}

/-- The record of an offset is found in its log. -/
theorem recordAt_eq_some_iff {p o : Nat} :
    recordAt w own (world.kafka.log p) o = some r ↔
      world.InWindow w (.kafka p o) ∧ world.Has (.kafka p o) r ∧ own r.table = true := by
  simp only [recordAt, World.InWindow, Topic.InWindow, World.Has]
  cases (world.kafka.log p)[o]? with
  | none => simp
  | some m =>
      simp only [Option.ite_none_right_eq_some, Option.some.injEq, exists_eq_left']
      constructor
      · rintro ⟨⟨hw, hown⟩, rfl⟩
        exact ⟨hw, rfl, hown⟩
      · rintro ⟨hw, rfl, hown⟩
        exact ⟨⟨hw, hown⟩, rfl⟩

/-- What the list has, said of its entries: nothing of the window is left out, and nothing else
is in it. -/
theorem mem_history {source : SourceName} :
    (m, r) ∈ world.history w own source ↔
      m.source = source ∧ world.InWindow w m ∧ world.Has m r ∧ own r.table = true := by
  cases source with
  | redis =>
      simp only [World.history, List.mem_map, List.mem_filter, Bool.and_eq_true,
        decide_eq_true_eq, Prod.mk.injEq]
      constructor
      · rintro ⟨e, ⟨he, hw, hown⟩, rfl, rfl⟩
        exact ⟨rfl, ⟨⟨e, he, rfl⟩, hw⟩, ⟨e, he, rfl, rfl⟩, hown⟩
      · rintro ⟨hsource, hin, hhas, hown⟩
        cases m with
        | redis id =>
            obtain ⟨e, he, rfl, rfl⟩ := hhas
            exact ⟨e, ⟨he, hin.2, hown⟩, rfl, rfl⟩
        | kafka p o => cases hsource
  | kafka =>
      simp only [World.history, List.mem_flatMap, List.mem_range, List.mem_filterMap,
        Option.map_eq_some_iff, Prod.mk.injEq]
      constructor
      · rintro ⟨p, hp, o, ho, r', hr', rfl, rfl⟩
        exact ⟨rfl, recordAt_eq_some_iff.mp hr'⟩
      · rintro ⟨hsource, hin⟩
        cases m with
        | redis id => cases hsource
        | kafka p o =>
            exact ⟨p, Topic.InWindow.partition_lt hin.1, o, Topic.InWindow.lt_length hin.1, r,
              recordAt_eq_some_iff.mpr hin, rfl, rfl⟩

/-- A record stays where it is stored, while the logs grow. -/
theorem World.Has.grow (h : world.Has m r) (hg : world.Grows world') : world'.Has m r := by
  cases m with
  | redis id =>
      obtain ⟨e, he, hid⟩ := h
      obtain ⟨es, hes, _⟩ := hg.redis
      exact ⟨e, by rw [hes]; exact List.mem_append_left _ he, hid⟩
  | kafka p o =>
      obtain ⟨m, hm, hr⟩ := h
      obtain ⟨l, hl⟩ := hg.kafka p
      refine ⟨m, ?_, hr⟩
      rw [← hl, List.getElem?_append_left (List.getElem?_eq_some_iff.mp hm).1]
      exact hm

/-- One record for one id. -/
theorem World.Has.eq (hsorted : world.Sorted) (h : world.Has m r) (h' : world.Has m r') :
    r = r' := by
  cases m with
  | redis id =>
      obtain ⟨e, he, rfl, rfl⟩ := h
      obtain ⟨e', he', hid, rfl⟩ := h'
      obtain ⟨i, hi, rfl⟩ := List.mem_iff_getElem.mp he
      obtain ⟨j, hj, rfl⟩ := List.mem_iff_getElem.mp he'
      -- ids increase, so two entries with one id are at one place
      rcases Nat.lt_trichotomy i j with hij | rfl | hij
      · have hlt := List.pairwise_iff_getElem.mp hsorted.redis i j hi hj hij
        rw [hid] at hlt
        exact absurd hlt (StreamId.lt_irrefl _)
      · rfl
      · have hlt := List.pairwise_iff_getElem.mp hsorted.redis j i hj hi hij
        rw [hid] at hlt
        exact absurd hlt (StreamId.lt_irrefl _)
  | kafka p o =>
      obtain ⟨m, hm, rfl⟩ := h
      obtain ⟨m', hm', rfl⟩ := h'
      rw [hm, Option.some.injEq] at hm'
      rw [hm']

/-- Every message of the window has a record. -/
theorem World.InWindow.exists_record (h : world.InWindow w m) : ∃ r, world.Has m r := by
  cases m with
  | redis id =>
      obtain ⟨⟨e, he, hid⟩, _⟩ := h
      exact ⟨e.record, e, he, hid, rfl⟩
  | kafka p o =>
      obtain ⟨m, hm, _⟩ := h
      exact ⟨m.value, m, hm, rfl⟩

/-- **A generator yields what is stored.** It is the one thing about the payload that the
results on replication need of the sources. -/
theorem Stream.Good.yield_has {st st' : Stream} {choice : Nat} {ev : ReplayEvent}
    (hsorted : world.Sorted) (h : st.Good w world)
    (hs : st.step w world choice = .yield ev st') : world.Has ev.message_id ev.payload := by
  cases st with
  | redis stream =>
      obtain ⟨stream', hstep, rfl⟩ := Stream.yield_of_lift hs
      obtain ⟨_, e, he, rfl, _⟩ := RedisStream.passed_step_yield hsorted.redis h.1 hstep
      exact ⟨e, he, rfl, rfl⟩
  | kafka stream =>
      obtain ⟨stream', hstep, rfl⟩ := Stream.yield_of_lift hs
      obtain ⟨_, o, m, rfl, hm, _⟩ := KafkaStream.step_yield h.1 hstep
      exact ⟨m, hm, rfl⟩

end

end WalStream.Source

/-
`KafkaReplaySource`: replay from the Kafka topic.

A partition is its log: the message at offset `o` is the `o`-th of the list, and the log
only grows at the end. The consumer is the part of aiokafka the generator relies on: a
position per partition, which `seek` sets and which delivering a message moves past it;
`offsets_for_times`, `end_offsets` and `position` answer from the log and the positions of
that moment. Each `await` on the consumer is one step, so producers may write between any
two of them.

`stream_events` first seeks every partition, then takes the high-water snapshot, then
consumes. `KafkaStream.step` is one step of it; which partition the consumer delivers from
next is the environment's choice.
-/
import WalStream.Source.Event
import WalStream.Lib.Log
import Mathlib.Algebra.GroupWithZero.Nat
import Mathlib.Data.Finset.Card
import Mathlib.Data.Finset.Range
import Mathlib.Data.List.GetD
import Mathlib.Logic.Function.Basic

set_option autoImplicit false

namespace WalStream.Source

open Lib

/-! ## The topic and the consumer's calls -/

/-- A message of the topic, as `publish_to_kafka` sends it. -/
structure KafkaMessage where
  timestamp : Nat
  value : ChangeRecord
deriving DecidableEq

/-- The topic: the logs of partitions `0, 1, …`. -/
abbrev Topic := List (List KafkaMessage)

/-- The log of a partition; a partition the topic lacks has no message. -/
def Topic.log (topic : Topic) (p : Nat) : List KafkaMessage := topic.getD p []

/-- Timestamps never decrease within a partition. -/
def KafkaSorted (topic : Topic) : Prop :=
  ∀ p, (topic.log p).Pairwise fun a b => a.timestamp ≤ b.timestamp

/-- `consumer.offsets_for_times` on one partition: the first offset whose timestamp is at
least `t`. -/
def offsets_for_times (log : List KafkaMessage) (t : Nat) : Option Nat :=
  log.findIdx? fun m => decide (t ≤ m.timestamp)

/-- A message is at or after the first one whose time reaches `t` when its own does. -/
theorem le_iff_of_offsets_for_times {log : List KafkaMessage} {t f o : Nat} {m : KafkaMessage}
    (hsorted : log.Pairwise fun a b => a.timestamp ≤ b.timestamp)
    (hf : offsets_for_times log t = some f) (hm : log[o]? = some m) :
    f ≤ o ↔ t ≤ m.timestamp := by
  rw [offsets_for_times, List.findIdx?_eq_some_iff_getElem] at hf
  obtain ⟨hlt, hfirst, hbefore⟩ := hf
  obtain ⟨ho, rfl⟩ := List.getElem?_eq_some_iff.mp hm
  constructor
  · intro hle
    rcases Nat.eq_or_lt_of_le hle with rfl | hlt'
    · exact of_decide_eq_true hfirst
    · exact (of_decide_eq_true hfirst).trans (List.pairwise_iff_getElem.mp hsorted _ _ hlt ho hlt')
  · intro hle
    by_contra hnot
    exact hbefore o (by omega) (decide_eq_true hle)

/-- If there is no such offset, every message so far is before that time. Nothing is said about
the messages to come, and the generator's seek to the end relies on there being none. -/
theorem lt_of_offsets_for_times_none {log : List KafkaMessage} {t o : Nat} {m : KafkaMessage}
    (hf : offsets_for_times log t = none) (hm : log[o]? = some m) : m.timestamp < t := by
  rw [offsets_for_times, List.findIdx?_eq_none_iff] at hf
  simpa using hf m (List.mem_of_getElem? hm)

/-- `consumer.end_offsets` on one partition. -/
def end_offset (log : List KafkaMessage) : Nat := log.length

/-- Where the consumer fetches next. A position beyond the end of the log is out of range,
and `auto_offset_reset="earliest"` moves it to the beginning. -/
def fetch_offset (log : List KafkaMessage) (position : Nat) : Nat :=
  if position ≤ log.length then position else 0

/-- `KafkaReplaySource.count_events`, when no call raises. -/
def kafka_count_events (topic : Topic) (w : Window) : Nat :=
  (topic.map fun log =>
    match offsets_for_times log w.start_ms, offsets_for_times log w.end_ms with
    | some s, some e => e - s
    | _, _ => 0).sum

/-! ## `KafkaReplaySource.stream_events` -/

/-- `_parse_checkpoint`: a JSON map, or a single `partition:offset`. A Redis id has no
colon and is refused. -/
def parse_checkpoint : Checkpoint → Except StreamError (Dict Nat Nat)
  | .json offsets => .ok offsets
  | .id (.kafka p o) => .ok (Dict.empty.set p o)
  | .id (.redis _) => .error .valueError

/-- Where the generator is. -/
inductive KafkaPhase
  /-- The partitions are assigned, nothing is sought yet. -/
  | opened
  /-- `offsets_for_times` has answered. The partitions of `pending` had no offset and are
  still to be sought to their end, one `end_offsets` call each. -/
  | seeking (pending : List Nat)
  /-- Inside `async for message in consumer`, with the high-water snapshot and the set of
  completed partitions. `resume` is the partition of the event just yielded, whose
  completion is checked when the generator is resumed. -/
  | consuming (end_offsets : List Nat) (completed : Finset Nat) (resume : Option Nat)
deriving DecidableEq

/-- The state of `KafkaReplaySource.stream_events`. -/
structure KafkaStream where
  /-- The parsed checkpoint; empty without one. -/
  offsets : Dict Nat Nat
  /-- The cached consumer's position on each partition. -/
  position : Nat → Nat
  phase : KafkaPhase

/-- The state in which the generator starts, on a consumer left at `position`. Whether the
topic has a partition is asked before the checkpoint is parsed: without one the generator
returns, and a checkpoint it could not parse goes unnoticed. -/
def KafkaStream.open (topic : Topic) (position : Nat → Nat) :
    Option Checkpoint → Except StreamError KafkaStream
  | none => .ok { offsets := Dict.empty, position := position, phase := .opened }
  | some cp =>
      match parse_checkpoint cp with
      | .ok offsets => .ok { offsets := offsets, position := position, phase := .opened }
      | .error e =>
          -- the offsets are never read then: the first step returns
          if topic.isEmpty then
            .ok { offsets := Dict.empty, position := position, phase := .opened }
          else .error e

/-- `mark_completed_if_at_end`. -/
def mark_completed_if_at_end (end_offsets : List Nat) (position : Nat → Nat)
    (completed : Finset Nat) (p : Nat) : Finset Nat :=
  match end_offsets[p]? with
  | none => completed
  | some e => if e ≤ position p then insert p completed else completed

/-- The position of partition `p` after the seeks that need no further call: past the
checkpointed offset, else at the first offset of the window. -/
def KafkaStream.sought (w : Window) (topic : Topic) (st : KafkaStream) (p : Nat) : Nat :=
  match st.offsets.get? p with
  | some o => o + 1
  | none =>
      match offsets_for_times (topic.log p) w.start_ms with
      | some o => o
      | none => st.position p

/-- The partitions `offsets_for_times` has no offset for. -/
def KafkaStream.unsought (w : Window) (topic : Topic) (st : KafkaStream) : List Nat :=
  (List.range topic.length).filter fun p =>
    (st.offsets.get? p).isNone && (offsets_for_times (topic.log p) w.start_ms).isNone

/-- The rest of the loop body after a partition's completion may have changed:
`len(completed_partitions) == len(partitions)` leaves the loop. -/
def KafkaStream.next (topic : Topic) (end_offsets : List Nat) (completed : Finset Nat)
    (st : KafkaStream) : StreamStep KafkaStream :=
  if completed.card = topic.length then
    .done { st with phase := .consuming end_offsets completed none }
  else
    .more { st with phase := .consuming end_offsets completed none }

/-- One step of the generator over the current topic. While consuming, `choice` is the
partition the consumer delivers from; a partition with nothing to deliver leaves the
generator waiting. -/
def KafkaStream.step (w : Window) (topic : Topic) (choice : Nat) (st : KafkaStream) :
    StreamStep KafkaStream :=
  match st.phase with
  -- no partitions: `stream_events` returns before it seeks
  | .opened =>
      if topic.isEmpty then
        .done st
      else
        .more { st with
          position := fun p => if p < topic.length then st.sought w topic p else st.position p,
          phase := .seeking (st.unsought w topic) }
  -- `end_offsets` is read now, not when `offsets_for_times` was asked
  | .seeking (p :: rest) =>
      .more { st with
        position := Function.update st.position p (end_offset (topic.log p)),
        phase := .seeking rest }
  -- the snapshot, taken of all partitions at once
  | .seeking [] =>
      let end_offsets := topic.map end_offset
      let completed := (List.range topic.length).foldl
        (mark_completed_if_at_end end_offsets st.position) ∅
      st.next topic end_offsets completed
  | .consuming end_offsets completed (some q) =>
      st.next topic end_offsets (mark_completed_if_at_end end_offsets st.position completed q)
  | .consuming end_offsets completed none =>
      let o := fetch_offset (topic.log choice) (st.position choice)
      match (topic.log choice)[o]? with
      | none => .more st
      | some message =>
          let st := { st with position := Function.update st.position choice (o + 1) }
          -- the consumer stays assigned to a completed partition, so messages still come
          if choice ∈ completed then
            .more st
          -- only the end of the window is compared here, not its start
          else if message.timestamp > w.end_ms then
            st.next topic end_offsets
              (mark_completed_if_at_end end_offsets st.position (insert choice completed) choice)
          else
            .yield ⟨.kafka choice o, message.value⟩
              { st with phase := .consuming end_offsets completed (some choice) }

/-! ## Producers -/

/-- A producer writes `m` at the end of partition `p`. -/
def Topic.produce (topic : Topic) (p : Nat) (m : KafkaMessage) : Topic :=
  topic.set p (topic.log p ++ [m])

/-- A write adds no partition. -/
@[simp] theorem Topic.length_produce (topic : Topic) (p : Nat) (m : KafkaMessage) :
    (topic.produce p m).length = topic.length := by
  simp [Topic.produce]

/-- A partition the topic lacks has an empty log, so that nothing has to be assumed about
partition numbers below. -/
theorem Topic.log_of_length_le {topic : Topic} {p : Nat} (h : topic.length ≤ p) :
    topic.log p = [] := by
  rw [Topic.log, List.getD_eq_default _ _ h]

/-- For a topic that is written down: each log is checked by itself. -/
theorem kafkaSorted_of_logs {topic : Topic}
    (h : ∀ log ∈ topic, log.Pairwise fun a b => a.timestamp ≤ b.timestamp) : KafkaSorted topic := by
  intro p
  by_cases hp : p < topic.length
  · refine h _ ?_
    rw [Topic.log, List.getD_eq_getElem _ _ hp]
    exact List.getElem_mem hp
  · rw [Topic.log_of_length_le (by omega)]
    exact List.Pairwise.nil

/-- The log that is written to has the message at its end, -/
theorem Topic.log_produce_self {topic : Topic} {p : Nat} (m : KafkaMessage)
    (h : p < topic.length) : (topic.produce p m).log p = topic.log p ++ [m] := by
  simp [Topic.produce, Topic.log, List.getD_eq_getElem?_getD, h]

/-- and the others are as they were. -/
theorem Topic.log_produce_of_ne {topic : Topic} {p q : Nat} (m : KafkaMessage) (h : q ≠ p) :
    (topic.produce p m).log q = topic.log q := by
  simp [Topic.produce, Topic.log, List.getD_eq_getElem?_getD, Ne.symm h]

/-- Every log only grows. -/
theorem Topic.log_prefix_produce (topic : Topic) (p q : Nat) (m : KafkaMessage) :
    topic.log q <+: (topic.produce p m).log q := by
  -- the written partition grows, the others stay
  by_cases hq : q = p
  · subst hq
    by_cases h : q < topic.length
    · rw [Topic.log_produce_self m h]
      exact List.prefix_append _ _
    · rw [Topic.log_of_length_le (by omega)]
      exact List.nil_prefix
  · rw [Topic.log_produce_of_ne m hq]

/-- What is read after a write was there before, or is the new message at the old end. -/
theorem Topic.getElem?_produce {topic : Topic} {p q o : Nat} {m m' : KafkaMessage}
    (hp : p < topic.length) (h : ((topic.produce p m).log q)[o]? = some m') :
    (topic.log q)[o]? = some m' ∨ (q = p ∧ o = (topic.log p).length ∧ m' = m) := by
  by_cases hq : q = p
  · subst hq
    rw [Topic.log_produce_self m hp] at h
    rcases getElem?_snoc_iff.mp h with h | ⟨ho, hm⟩
    · exact Or.inl h
    · exact Or.inr ⟨rfl, ho, hm.symm⟩
  · rw [Topic.log_produce_of_ne m hq] at h
    exact Or.inl h

/-- Producers write with the time of the broker or of the commit; as long as that does not go
back within a partition the topic stays sorted. -/
theorem KafkaSorted.produce {topic : Topic} {p : Nat} {m : KafkaMessage} (h : KafkaSorted topic)
    (hp : p < topic.length) (hm : ∀ m' ∈ topic.log p, m'.timestamp ≤ m.timestamp) :
    KafkaSorted (topic.produce p m) := by
  intro q
  by_cases hq : q = p
  · subst hq
    rw [Topic.log_produce_self m hp, List.pairwise_append]
    refine ⟨h q, List.pairwise_singleton _ _, fun a ha b hb => ?_⟩
    rw [List.mem_singleton.mp hb]
    exact hm a ha
  · rw [Topic.log_produce_of_ne m hq]
    exact h q

/-! ## What the generator has passed -/

/-- Offset `o` of partition `p` holds a message of the window. -/
def Topic.InWindow (topic : Topic) (w : Window) (p o : Nat) : Prop :=
  ∃ m, (topic.log p)[o]? = some m ∧ w.contains m.timestamp

/-- A message of the window is in the log, -/
theorem Topic.InWindow.lt_length {topic : Topic} {w : Window} {p o : Nat}
    (h : topic.InWindow w p o) : o < (topic.log p).length := by
  obtain ⟨m, hm, _⟩ := h
  exact (List.getElem?_eq_some_iff.mp hm).1

/-- and its partition is one of the topic. -/
theorem Topic.InWindow.partition_lt {topic : Topic} {w : Window} {p o : Nat}
    (h : topic.InWindow w p o) : p < topic.length := by
  by_contra hp
  have hlen := h.lt_length
  rw [Topic.log_of_length_le (by omega)] at hlen
  exact absurd hlen (by simp)

namespace KafkaStream

variable {w : Window} {topic : Topic} {st st' : KafkaStream} {choice : Nat}

/-- The offsets of partition `p` the generator is done with: those its checkpoint covers,
then those below the consumer's position, and for a completed partition everything below
the snapshot. -/
def Passed (st : KafkaStream) (p o : Nat) : Prop :=
  match st.phase with
  | .opened => ∃ c, st.offsets.get? p = some c ∧ o ≤ c
  | .seeking pending => p ∉ pending ∧ o < st.position p
  | .consuming ends completed _ =>
      if p ∈ completed then o < ends.getD p 0 else o < st.position p

/-- The partitions still to be sought to their end. -/
def pending (st : KafkaStream) : List Nat :=
  match st.phase with
  | .seeking pending => pending
  | _ => []

/-- The high-water snapshot of partition `p`; nothing is below it before it is taken. -/
def snapshot (st : KafkaStream) (p : Nat) : Nat :=
  match st.phase with
  | .consuming ends _ _ => ends.getD p 0
  | _ => 0

/-- The loop invariant while consuming: the snapshot lies within the logs, a partition
that is not completed has a message below its snapshot to come (or had its last one
yielded just now), and some partition is not completed. -/
structure Consuming (topic : Topic) (st : KafkaStream) (ends : List Nat)
    (completed : Finset Nat) (resume : Option Nat) : Prop where
  ends_length : ends.length = topic.length
  ends_le : ∀ p, ends.getD p 0 ≤ (topic.log p).length
  completed_lt : ∀ p ∈ completed, p < topic.length
  position_lt : ∀ p < topic.length, p ∉ completed → resume ≠ some p →
    st.position p < ends.getD p 0
  position_le : ∀ p, resume = some p →
    p < topic.length ∧ p ∉ completed ∧ st.position p ≤ ends.getD p 0
  exists_open : ∃ p < topic.length, p ∉ completed

/-- The invariant of the generator. -/
def Inv (topic : Topic) (st : KafkaStream) : Prop :=
  match st.phase with
  | .consuming ends completed resume => Consuming topic st ends completed resume
  | _ => True

/-- A checkpoint that parses is a map or one position of a partition. -/
theorem parse_checkpoint_cases {cp : Checkpoint} {offsets : Dict Nat Nat}
    (h : parse_checkpoint cp = .ok offsets) :
    cp = .json offsets ∨ ∃ p o, cp = .id (.kafka p o) ∧ offsets = Dict.empty.set p o := by
  unfold parse_checkpoint at h
  split at h
  · cases h
    exact Or.inl rfl
  · rename_i p o
    cases h
    exact Or.inr ⟨p, o, rfl, rfl⟩
  · cases h

/-- Only a Redis id does not parse. -/
theorem parse_checkpoint_error {cp : Checkpoint} {e : StreamError}
    (h : parse_checkpoint cp = .error e) : ∃ id, cp = .id (.redis id) := by
  unfold parse_checkpoint at h
  split at h
  · cases h
  · cases h
  · rename_i id
    exact ⟨id, rfl⟩

/-- A freshly opened generator has passed what its checkpoint covers. A checkpoint that does
not parse is a Redis id, and covers no message of a partition. -/
theorem open_spec {position : Nat → Nat} {cp : Option Checkpoint}
    (h : KafkaStream.open topic position cp = .ok st) :
    st.phase = .opened ∧
      (cp = none → st.offsets = Dict.empty) ∧
      (∀ c, cp = some c → parse_checkpoint c = .ok st.offsets ∨
        ∃ id, c = .id (.redis id) ∧ topic = [] ∧ st.offsets = Dict.empty) := by
  cases cp with
  | none =>
      cases h
      exact ⟨rfl, fun _ => rfl, fun _ h' => by contradiction⟩
  | some c =>
      simp only [KafkaStream.open] at h
      cases hc : parse_checkpoint c with
      | error e =>
          rw [hc] at h
          simp only [List.isEmpty_iff] at h
          split at h
          · rename_i hempty
            cases h
            refine ⟨rfl, fun h' => by contradiction, ?_⟩
            rintro c' ⟨⟩
            obtain ⟨id, rfl⟩ := parse_checkpoint_error hc
            exact Or.inr ⟨id, rfl, hempty, rfl⟩
          · cases h
      | ok offsets =>
          rw [hc] at h
          cases h
          refine ⟨rfl, fun h' => by contradiction, ?_⟩
          rintro c' ⟨⟩
          exact Or.inl hc

/-- The invariant survives writes to the topic. -/
theorem Inv.grow {topic' : Topic} (h : Inv topic st) (hlen : topic'.length = topic.length)
    (hlog : ∀ p, topic.log p <+: topic'.log p) : Inv topic' st := by
  unfold Inv at h ⊢
  split
  · rename_i ends completed resume hph
    rw [hph] at h
    obtain ⟨hends, hle, hlt, hpos, hpos', hopen⟩ := h
    refine ⟨hends.trans hlen.symm, fun q => (hle q).trans (hlog q).length_le, ?_, ?_, ?_, ?_⟩
    · simpa only [hlen] using hlt
    · simpa only [hlen] using hpos
    · simpa only [hlen] using hpos'
    · simpa only [hlen] using hopen
  · trivial

/-! ## Marking -/

/-- The end of a partition's log at the snapshot. -/
theorem ends_getD (topic : Topic) (p : Nat) :
    (topic.map end_offset).getD p 0 = end_offset (topic.log p) := by
  by_cases hp : p < topic.length
  · simp [Topic.log, hp, List.getD_eq_getElem?_getD]
  · rw [Topic.log_of_length_le (by omega), List.getD_eq_default _ _ (by simp; omega)]
    rfl

/-- `mark_completed_if_at_end`, read as what it adds: the partition, if its position has reached
the snapshot. -/
theorem mem_mark {ends : List Nat} {position : Nat → Nat} {completed : Finset Nat} {p q : Nat} :
    q ∈ mark_completed_if_at_end ends position completed p ↔
      q ∈ completed ∨ (q = p ∧ p < ends.length ∧ ends.getD p 0 ≤ position p) := by
  unfold mark_completed_if_at_end
  by_cases hp : p < ends.length
  · rw [List.getElem?_eq_getElem hp, List.getD_eq_getElem _ _ hp]
    dsimp only
    split
    · rename_i hle
      simp only [Finset.mem_insert, hp, hle, and_true]
      exact or_comm
    · rename_i hle
      simp [hle]
  · rw [List.getElem?_eq_none (by omega)]
    simp [hp]

/-- At the snapshot it is called for every partition in turn, and adds each of those at their
end. -/
theorem mem_foldl_mark {ends : List Nat} {position : Nat → Nat} {q : Nat} (ps : List Nat)
    (completed : Finset Nat) :
    q ∈ ps.foldl (mark_completed_if_at_end ends position) completed ↔
      q ∈ completed ∨ (q ∈ ps ∧ q < ends.length ∧ ends.getD q 0 ≤ position q) := by
  induction ps generalizing completed with
  | nil => simp
  | cons p ps ih =>
      rw [List.foldl_cons, ih, mem_mark, List.mem_cons]
      constructor
      · rintro ((h | ⟨rfl, h⟩) | ⟨h, h'⟩)
        · exact Or.inl h
        · exact Or.inr ⟨Or.inl rfl, h⟩
        · exact Or.inr ⟨Or.inr h, h'⟩
      · rintro (h | ⟨rfl | h, h'⟩)
        · exact Or.inl (Or.inl h)
        · exact Or.inl (Or.inr ⟨rfl, h'⟩)
        · exact Or.inr ⟨h, h'⟩

/-- A set of partitions of the topic is as large as the topic exactly when it has them
all. -/
theorem card_eq_length_iff {completed : Finset Nat} (hlt : ∀ p ∈ completed, p < topic.length) :
    completed.card = topic.length ↔ ∀ p < topic.length, p ∈ completed := by
  have hsub : completed ⊆ Finset.range topic.length :=
    fun p hp => Finset.mem_range.mpr (hlt p hp)
  constructor
  · intro h p hp
    have heq := Finset.eq_of_subset_of_card_le hsub (by rw [Finset.card_range]; omega)
    rw [heq]
    exact Finset.mem_range.mpr hp
  · intro h
    have heq : completed = Finset.range topic.length :=
      Finset.Subset.antisymm hsub fun p hp => h p (Finset.mem_range.mp hp)
    rw [heq, Finset.card_range]

/-! ## The spec lemmas -/

/-- What the end of a loop round establishes, whichever way it goes. -/
theorem next_spec {ends : List Nat} {completed : Finset Nat}
    (hlen : ends.length = topic.length) (hle : ∀ p, ends.getD p 0 ≤ (topic.log p).length)
    (hlt : ∀ p ∈ completed, p < topic.length)
    (hpos : ∀ p < topic.length, p ∉ completed → st.position p < ends.getD p 0) :
    (st.next topic ends completed = .more st' →
      st' = { st with phase := .consuming ends completed none } ∧ Inv topic st') ∧
    (st.next topic ends completed = .done st' →
      st' = { st with phase := .consuming ends completed none } ∧
        ∀ p < topic.length, p ∈ completed) := by
  unfold next
  split
  · rename_i hcard
    refine ⟨fun h => by contradiction, fun h => ?_⟩
    cases h
    exact ⟨rfl, (card_eq_length_iff hlt).mp hcard⟩
  · rename_i hcard
    refine ⟨fun h => ?_, fun h => by contradiction⟩
    cases h
    refine ⟨rfl, hlen, hle, hlt, fun p hp hnot _ => hpos p hp hnot, fun p h => by contradiction, ?_⟩
    rw [card_eq_length_iff hlt] at hcard
    push Not at hcard
    exact hcard

/-- The next round starts with the completed set of this one. -/
theorem next_eq {ends : List Nat} {completed : Finset Nat}
    (h : st.next topic ends completed = .more st' ∨ st.next topic ends completed = .done st') :
    st' = { st with phase := .consuming ends completed none } := by
  unfold next at h
  split at h
  · rcases h with h | h <;> cases h; rfl
  · rcases h with h | h <;> cases h; rfl

/-- No message of the window is below the first offset at or after its start. -/
theorem not_inWindow_of_lt_first {p o f : Nat}
    (hf : offsets_for_times (topic.log p) w.start_ms = some f) (ho : o < f) :
    ¬ topic.InWindow w p o := by
  rintro ⟨m, hm, hw⟩
  rw [offsets_for_times, List.findIdx?_eq_some_iff_getElem] at hf
  obtain ⟨hlen, _, hbelow⟩ := hf
  obtain ⟨ho', rfl⟩ := List.getElem?_eq_some_iff.mp hm
  have := hbelow o ho
  simp only [decide_eq_true_eq] at this
  exact this hw.1

/-- Where the lookup found nothing, nothing of the window is there, at that moment. -/
theorem not_inWindow_of_none {p o : Nat}
    (hf : offsets_for_times (topic.log p) w.start_ms = none) : ¬ topic.InWindow w p o := by
  rintro ⟨m, hm, hw⟩
  rw [offsets_for_times, List.findIdx?_eq_none_iff] at hf
  have := hf m (List.mem_of_getElem? hm)
  simp only [decide_eq_false_iff_not] at this
  exact this hw.1

/-- **The seeks.** Before the first seek and after it, the generator has passed the same
messages of the window: those its checkpoint covers. -/
theorem passed_after_lookup {p o : Nat} (hph : st.phase = .opened) (hin : topic.InWindow w p o) :
    ({ st with
        position := fun p => if p < topic.length then st.sought w topic p else st.position p,
        phase := .seeking (st.unsought w topic) } : KafkaStream).Passed p o ↔ st.Passed p o := by
  have hp := hin.partition_lt
  simp only [Passed, hph, unsought, List.mem_filter, List.mem_range, hp, true_and, if_true, sought]
  -- sought past the checkpointed offset, to the first offset of the window, or not yet
  cases hc : st.offsets.get? p with
  | some c =>
      simp only [Option.isNone_some, Bool.false_and, Bool.false_eq_true, not_false_eq_true,
        true_and, Nat.lt_succ_iff, Option.some.injEq, exists_eq_left']
  | none =>
      cases hf : offsets_for_times (topic.log p) w.start_ms with
      | some f =>
          have hge : ¬ o < f := fun h => not_inWindow_of_lt_first hf h hin
          simp [hge]
      | none => simp

/-- The partitions left over have no message at or after the start of the window. -/
theorem pending_after_lookup {p : Nat} (hp : p ∈ st.unsought w topic) :
    offsets_for_times (topic.log p) w.start_ms = none := by
  simp only [unsought, List.mem_filter, Bool.and_eq_true, Option.isNone_iff_eq_none] at hp
  exact hp.2.2

/-- Seeking a partition to its end passes no message of the window if it has none. -/
theorem passed_after_seek_end {p q o : Nat} {rest : List Nat}
    (hph : st.phase = .seeking (p :: rest)) (hquiet : ∀ o, ¬ topic.InWindow w p o)
    (hin : topic.InWindow w q o) :
    ({ st with
        position := Function.update st.position p (end_offset (topic.log p)),
        phase := .seeking rest } : KafkaStream).Passed q o ↔ st.Passed q o := by
  have hq : q ≠ p := by rintro rfl; exact hquiet o hin
  simp only [Passed, hph, List.mem_cons, hq, false_or, Function.update_of_ne hq]

/-- Marking partitions as completed passes nothing new: what is below the snapshot of a
completed partition is below its position. -/
theorem passed_after_mark {ends : List Nat} {completed completed' : Finset Nat}
    {resume : Option Nat} {p o : Nat} (hph : st.phase = .consuming ends completed resume)
    (hsub : completed ⊆ completed')
    (hnew : ∀ p ∈ completed', p ∉ completed →
      (o < ends.getD p 0 ↔ o < st.position p) ∨ ¬ topic.InWindow w p o)
    (hin : topic.InWindow w p o) :
    ({ st with phase := .consuming ends completed' none } : KafkaStream).Passed p o
      ↔ st.Passed p o := by
  simp only [Passed, hph]
  -- completed before, completed now, or open in both
  by_cases hc : p ∈ completed
  · rw [if_pos hc, if_pos (hsub hc)]
  · rw [if_neg hc]
    by_cases hc' : p ∈ completed'
    · rw [if_pos hc']
      exact (hnew p hc' hc).resolve_right (not_not_intro hin)
    · rw [if_neg hc']

/-- A partition that is not completed delivers from its position, which is below the
snapshot. -/
theorem Consuming.fetch {ends : List Nat} {completed : Finset Nat} {m : KafkaMessage}
    (h : Consuming topic st ends completed none) (hnot : choice ∉ completed)
    (hm : (topic.log choice)[fetch_offset (topic.log choice) (st.position choice)]? = some m) :
    choice < topic.length ∧ st.position choice < ends.getD choice 0 ∧
      fetch_offset (topic.log choice) (st.position choice) = st.position choice := by
  have hp : choice < topic.length := by
    by_contra hge
    rw [Topic.log_of_length_le (by omega)] at hm
    simp at hm
  have hpos := h.position_lt choice hp hnot (fun h' => by contradiction)
  have hle := h.ends_le choice
  refine ⟨hp, hpos, ?_⟩
  rw [fetch_offset, if_pos (by omega)]

/-- Marking a partition that is already completed changes nothing. -/
theorem mark_of_mem {ends : List Nat} {position : Nat → Nat} {completed : Finset Nat} {p : Nat}
    (h : p ∈ completed) : mark_completed_if_at_end ends position completed p = completed := by
  ext q
  rw [mem_mark]
  constructor
  · rintro (hq | ⟨rfl, _⟩)
    · exact hq
    · exact h
  · exact Or.inl

/-- Moving a partition's position past a message. -/
def advance (st : KafkaStream) (p o : Nat) : KafkaStream :=
  { st with position := Function.update st.position p (o + 1) }

/-- The message the consumer delivers in the next step, if the generator awaits one and
the chosen partition has one. -/
def delivery (topic : Topic) (choice : Nat) (st : KafkaStream) : Option (Nat × Nat) :=
  match st.phase with
  | .consuming _ _ none =>
      let o := fetch_offset (topic.log choice) (st.position choice)
      if o < (topic.log choice).length then some (choice, o) else none
  | _ => none

/-- The consumer delivers `m` from the open partition `choice`, at the position it has
there. -/
structure Fetched (topic : Topic) (choice : Nat) (st : KafkaStream) (ends : List Nat)
    (completed : Finset Nat) (m : KafkaMessage) : Prop where
  phase_eq : st.phase = .consuming ends completed none
  not_completed : choice ∉ completed
  partition_lt : choice < topic.length
  position_lt : st.position choice < ends.getD choice 0
  delivery_eq : st.delivery topic choice = some (choice, st.position choice)
  message_eq : (topic.log choice)[st.position choice]? = some m

/-- **What one step can do.** One constructor for each way through `stream_events`. -/
inductive Took (w : Window) (topic : Topic) (choice : Nat) (st : KafkaStream) :
    StreamStep KafkaStream → Prop
  /-- The topic has no partitions: the generator returns. -/
  | empty (hph : st.phase = .opened) (htopic : topic = []) : Took w topic choice st (.done st)
  /-- The seeks by the checkpoint and by `offsets_for_times`. -/
  | looked_up (hph : st.phase = .opened) : Took w topic choice st
      (.more { st with
        position := fun p => if p < topic.length then st.sought w topic p else st.position p,
        phase := .seeking (st.unsought w topic) })
  /-- One more partition without an offset is sought to its end. -/
  | sought_end (p : Nat) (rest : List Nat) (hph : st.phase = .seeking (p :: rest)) :
      Took w topic choice st
        (.more { st with
          position := Function.update st.position p (end_offset (topic.log p)),
          phase := .seeking rest })
  /-- The snapshot; partitions that stand at their end already are completed. -/
  | snapshot (hph : st.phase = .seeking []) (outcome : StreamStep KafkaStream)
      (h : st.next topic (topic.map end_offset) ((List.range topic.length).foldl
        (mark_completed_if_at_end (topic.map end_offset) st.position) ∅) = outcome) :
      Took w topic choice st outcome
  /-- The check of the partition of the event yielded last. -/
  | checked (ends : List Nat) (completed : Finset Nat) (q : Nat)
      (hph : st.phase = .consuming ends completed (some q)) (outcome : StreamStep KafkaStream)
      (h : st.next topic ends (mark_completed_if_at_end ends st.position completed q) = outcome) :
      Took w topic choice st outcome
  /-- The chosen partition has nothing to deliver. -/
  | waited (ends : List Nat) (completed : Finset Nat)
      (hph : st.phase = .consuming ends completed none)
      (hdel : st.delivery topic choice = none) : Took w topic choice st (.more st)
  /-- A message of a completed partition is skipped. -/
  | skipped (ends : List Nat) (completed : Finset Nat) (o : Nat)
      (hph : st.phase = .consuming ends completed none) (hc : choice ∈ completed)
      (hdel : st.delivery topic choice = some (choice, o)) :
      Took w topic choice st (.more (st.advance choice o))
  /-- The first message beyond the window completes its partition. -/
  | past (ends : List Nat) (completed : Finset Nat) (m : KafkaMessage)
      (hm : st.Fetched topic choice ends completed m) (hend : w.end_ms < m.timestamp)
      (outcome : StreamStep KafkaStream)
      (h : (st.advance choice (st.position choice)).next topic ends (insert choice completed)
        = outcome) : Took w topic choice st outcome
  /-- A message that is not beyond the window is yielded. -/
  | yielded (ends : List Nat) (completed : Finset Nat) (m : KafkaMessage)
      (hm : st.Fetched topic choice ends completed m) (hend : m.timestamp ≤ w.end_ms) :
      Took w topic choice st (.yield ⟨.kafka choice (st.position choice), m.value⟩
        { st.advance choice (st.position choice) with
          phase := .consuming ends completed (some choice) })

/-- **The inversion of `step`.** It needs the loop invariant, because a step is told apart by
what it delivers: that the consumer delivers at the position of an open partition is part of
that. -/
theorem step_took (w : Window) (choice : Nat) (h : Inv topic st) :
    Took w topic choice st (st.step w topic choice) := by
  cases hph : st.phase with
  | opened =>
      simp only [step, hph]
      split
      · rename_i hempty
        exact .empty hph (List.isEmpty_iff.mp hempty)
      · exact .looked_up hph
  | seeking pending =>
      cases pending with
      | nil =>
          simp only [step, hph]
          exact .snapshot hph _ rfl
      | cons p rest =>
          simp only [step, hph]
          exact .sought_end p rest hph
  | consuming ends completed resume =>
      simp only [Inv, hph] at h
      cases resume with
      | some q =>
          simp only [step, hph]
          exact .checked ends completed q hph _ rfl
      | none =>
          simp only [step, hph]
          cases hm : (topic.log choice)[fetch_offset (topic.log choice) (st.position choice)]? with
          | none =>
              have hge := List.getElem?_eq_none_iff.mp hm
              refine .waited ends completed hph ?_
              simp only [delivery, hph]
              exact if_neg (by omega)
          | some m =>
              have hlt := (List.getElem?_eq_some_iff.mp hm).1
              have hdel : st.delivery topic choice
                  = some (choice, fetch_offset (topic.log choice) (st.position choice)) := by
                simp only [delivery, hph]
                exact if_pos hlt
              dsimp only
              by_cases hc : choice ∈ completed
              · rw [if_pos hc, ← hph]
                exact .skipped ends completed _ hph hc hdel
              · -- below the snapshot the consumer is not sent back to the beginning
                obtain ⟨hcn, hcpos, hfetch⟩ := h.fetch hc hm
                rw [hfetch] at hm hdel ⊢
                have hfetched : st.Fetched topic choice ends completed m :=
                  ⟨hph, hc, hcn, hcpos, hdel, hm⟩
                rw [if_neg hc]
                by_cases hend : m.timestamp > w.end_ms
                · rw [if_pos hend, mark_of_mem (Finset.mem_insert_self ..)]
                  exact .past ends completed m hfetched hend _ rfl
                · rw [if_neg hend]
                  exact .yielded ends completed m hfetched (by omega)

/-- The end of a loop round yields nothing: events come from deliveries alone. -/
theorem next_ne_yield {ends : List Nat} {completed : Finset Nat} {ev : ReplayEvent} :
    st.next topic ends completed ≠ .yield ev st' := by
  unfold next
  split
  · simp
  · simp

/-- The generator yields the message it fetched. -/
theorem fetched_of_yield {ev : ReplayEvent} (h : Inv topic st)
    (hs : st.step w topic choice = .yield ev st') :
    ∃ ends completed m, st.Fetched topic choice ends completed m ∧ m.timestamp ≤ w.end_ms ∧
      ev = ⟨.kafka choice (st.position choice), m.value⟩ ∧
      st' = { st.advance choice (st.position choice) with
        phase := .consuming ends completed (some choice) } := by
  have htook := step_took w choice h
  rw [hs] at htook
  cases htook with
  | snapshot _ _ h | checked _ _ _ _ _ h | past _ _ _ _ _ _ h => exact absurd h next_ne_yield
  | yielded ends completed m hm hend => exact ⟨ends, completed, m, hm, hend, rfl, rfl⟩

/-- The generator returns at once from an empty topic, and else while it consumes. -/
theorem consuming_of_done (h : Inv topic st) (hs : st.step w topic choice = .done st') :
    (st' = st ∧ st.phase = .opened ∧ topic = []) ∨
      ∃ ends completed, st'.phase = .consuming ends completed none := by
  have htook := step_took w choice h
  rw [hs] at htook
  cases htook with
  | empty hph htopic => exact Or.inl ⟨rfl, hph, htopic⟩
  | snapshot _ _ h | checked _ _ _ _ _ h | past _ _ _ _ _ _ h =>
      rw [next_eq (Or.inr h)]
      exact Or.inr ⟨_, _, rfl⟩

/-! ### The sets of completed partitions -/

section

variable {ends : List Nat} {completed : Finset Nat} {p q o : Nat}

/-- The completed partitions stay partitions of the topic, after a check -/
theorem Consuming.mark_lt (h : Consuming topic st ends completed (some q))
    (hp : p ∈ mark_completed_if_at_end ends st.position completed q) : p < topic.length := by
  rcases mem_mark.mp hp with hp | ⟨rfl, _⟩
  · exact h.completed_lt p hp
  · exact (h.position_le p rfl).1

/-- A partition the check leaves open is still below the snapshot. -/
theorem Consuming.position_lt_of_mark (h : Consuming topic st ends completed (some q))
    (hp : p < topic.length) (hnot : p ∉ mark_completed_if_at_end ends st.position completed q) :
    st.position p < ends.getD p 0 := by
  rw [mem_mark, not_or] at hnot
  by_cases hpq : p = q
  · subst hpq
    have hlen := h.ends_length
    have hopen := hnot.2
    simp only [true_and, not_and, not_le] at hopen
    exact hopen (by omega)
  · exact h.position_lt p hp hnot.1 (by simpa using fun h' => hpq h'.symm)

/-- and after a message beyond the window. Their number is what ends the loop, so they must not
be counted twice or too many. -/
theorem Consuming.insert_lt (h : Consuming topic st ends completed none)
    (hq : q < topic.length) (hp : p ∈ insert q completed) : p < topic.length := by
  rcases Finset.mem_insert.mp hp with rfl | hp
  · exact hq
  · exact h.completed_lt p hp

/-- Completing a partition leaves the others below the snapshot. -/
theorem Consuming.position_lt_of_insert (h : Consuming topic st ends completed none)
    (hp : p < topic.length) (hnot : p ∉ insert q completed) :
    (st.advance q o).position p < ends.getD p 0 := by
  rw [Finset.mem_insert, not_or] at hnot
  simp only [advance]
  rw [Function.update_of_ne hnot.1]
  exact h.position_lt p hp hnot.2 (fun h' => by contradiction)

end

/-- Taking the snapshot: the partitions already at their end are completed, and nothing is
passed by that. -/
private theorem snapshot_spec (hph : st.phase = .seeking []) {outcome : StreamStep KafkaStream}
    (hnext : st.next topic (topic.map end_offset) ((List.range topic.length).foldl
      (mark_completed_if_at_end (topic.map end_offset) st.position) ∅) = outcome)
    (hs : outcome = .more st' ∨ outcome = .done st') :
    (outcome = .more st' → Inv topic st') ∧
      (outcome = .done st' → ∀ p o, o < st'.snapshot p → st'.Passed p o) ∧
      ∀ p o, topic.InWindow w p o → (st'.Passed p o ↔ st.Passed p o) := by
  have hlen : (topic.map end_offset).length = topic.length := by simp
  have hend : ∀ p, (topic.map end_offset).getD p 0 = (topic.log p).length := ends_getD topic
  have hmem : ∀ p, p ∈ (List.range topic.length).foldl
        (mark_completed_if_at_end (topic.map end_offset) st.position) ∅ ↔
      p < topic.length ∧ (topic.log p).length ≤ st.position p := by
    intro p
    rw [mem_foldl_mark, hlen, hend]
    simp
  have hspec := @next_spec topic st st' (topic.map end_offset)
    ((List.range topic.length).foldl
      (mark_completed_if_at_end (topic.map end_offset) st.position) ∅)
    hlen (fun p => (hend p).le) (fun p hp => ((hmem p).mp hp).1)
    (fun p hp hnot => by rw [hmem] at hnot; rw [hend]; omega)
  rw [hnext] at hspec
  have hst' := next_eq (by rw [hnext]; exact hs)
  -- returning means that every partition is completed, so its snapshot bounds what is passed
  refine ⟨fun h => (hspec.1 h).2, fun h p o ho => ?_, fun p o hin => ?_⟩
  · have hall := (hspec.2 h).2
    subst hst'
    simp only [snapshot, Passed] at ho ⊢
    have hp : p < topic.length := by
      by_contra hge
      rw [List.getD_eq_default _ _ (by omega)] at ho
      omega
    rw [if_pos (hall p hp)]
    exact ho
  · subst hst'
    have ho := hin.lt_length
    simp only [Passed, hph, List.not_mem_nil, not_false_eq_true, true_and, hend]
    split
    · rename_i hc
      have := ((hmem p).mp hc).2
      omega
    · rfl

/-- The end of a round while consuming, from a state whose positions are already moved:
completing partitions passes nothing new, and leaving the loop means that everything below
the snapshot is passed. -/
private theorem round_spec {ends : List Nat} {completed completed' : Finset Nat}
    {resume : Option Nat} (hph : st.phase = .consuming ends completed resume)
    (hlen : ends.length = topic.length) (hle : ∀ p, ends.getD p 0 ≤ (topic.log p).length)
    (hlt : ∀ p ∈ completed', p < topic.length)
    (hpos : ∀ p < topic.length, p ∉ completed' → st.position p < ends.getD p 0)
    (hsub : completed ⊆ completed')
    (hnew : ∀ p ∈ completed', p ∉ completed → ∀ o, topic.InWindow w p o →
      (o < ends.getD p 0 ↔ o < st.position p))
    {outcome : StreamStep KafkaStream} (hnext : st.next topic ends completed' = outcome)
    (hs : outcome = .more st' ∨ outcome = .done st') :
    (outcome = .more st' → Inv topic st') ∧
      (outcome = .done st' → ∀ p o, o < st'.snapshot p → st'.Passed p o) ∧
      ∀ p o, topic.InWindow w p o → (st'.Passed p o ↔ st.Passed p o) := by
  have hspec := @next_spec topic st st' ends completed' hlen hle hlt hpos
  rw [hnext] at hspec
  have hst' := next_eq (by rw [hnext]; exact hs)
  refine ⟨fun h => (hspec.1 h).2, fun h p o ho => ?_, fun p o hin => ?_⟩
  · have hall := (hspec.2 h).2
    subst hst'
    simp only [snapshot, Passed] at ho ⊢
    have hp : p < topic.length := by
      by_contra hge
      rw [List.getD_eq_default _ _ (by omega)] at ho
      omega
    rw [if_pos (hall p hp)]
    exact ho
  · rw [hst']
    exact passed_after_mark hph hsub
      (fun p hp hnot => by
        by_cases hin' : topic.InWindow w p o
        · exact Or.inl (hnew p hp hnot o hin')
        · exact Or.inr hin') hin

/-- Past its first message beyond the window a partition has no message of the window. -/
theorem not_inWindow_of_late (hsorted : KafkaSorted topic) {p o o' : Nat} {m : KafkaMessage}
    (hm : (topic.log p)[o]? = some m) (hlate : w.end_ms < m.timestamp) (ho : o ≤ o') :
    ¬ topic.InWindow w p o' := by
  rintro ⟨m', hm', hw⟩
  obtain ⟨hlt, rfl⟩ := List.getElem?_eq_some_iff.mp hm
  obtain ⟨hlt', rfl⟩ := List.getElem?_eq_some_iff.mp hm'
  have hle : (topic.log p)[o].timestamp ≤ (topic.log p)[o'].timestamp := by
    -- timestamps do not decrease within the partition
    rcases Nat.eq_or_lt_of_le ho with rfl | ho
    · exact Nat.le_refl _
    · exact List.pairwise_iff_getElem.mp (hsorted p) _ _ hlt hlt' ho
  have := hw.2
  omega

/-- The check after a `yield`: only the partition of the event may become completed, and
it is below its position then. -/
private theorem checked_spec {ends : List Nat} {completed : Finset Nat} {q : Nat}
    (hph : st.phase = .consuming ends completed (some q))
    (h : Consuming topic st ends completed (some q)) {outcome : StreamStep KafkaStream}
    (hnext : st.next topic ends (mark_completed_if_at_end ends st.position completed q) = outcome)
    (hs : outcome = .more st' ∨ outcome = .done st') :
    (outcome = .more st' → Inv topic st') ∧
      (outcome = .done st' → ∀ p o, o < st'.snapshot p → st'.Passed p o) ∧
      ∀ p o, topic.InWindow w p o → (st'.Passed p o ↔ st.Passed p o) := by
  refine round_spec hph h.ends_length h.ends_le (fun p hp => h.mark_lt hp)
    (fun p hp hnot => h.position_lt_of_mark hp hnot) (fun p hp => mem_mark.mpr (Or.inl hp)) ?_
    hnext hs
  intro p hp hnot o _
  obtain ⟨rfl, _, hge⟩ := (mem_mark.mp hp).resolve_left hnot
  have hle := (h.position_le p rfl).2.2
  omega

/-- Skipping a message of a completed partition. -/
private theorem skipped_spec {ends : List Nat} {completed : Finset Nat} {o : Nat}
    (hph : st.phase = .consuming ends completed none) (hc : choice ∈ completed)
    (h : Consuming topic st ends completed none) :
    Inv topic (st.advance choice o) ∧
      ∀ p o', (st.advance choice o).Passed p o' ↔ st.Passed p o' := by
  have hne : ∀ p, p ∉ completed → p ≠ choice := by
    rintro p hp rfl
    exact hp hc
  refine ⟨?_, fun p o' => ?_⟩
  · simp only [Inv, advance, hph]
    refine ⟨h.ends_length, h.ends_le, h.completed_lt, fun p hp hnot hr => ?_,
      fun p hr => by contradiction, h.exists_open⟩
    dsimp only
    rw [Function.update_of_ne (hne p hnot)]
    exact h.position_lt p hp hnot hr
  · simp only [Passed, advance, hph]
    by_cases hpc : p ∈ completed
    · rw [if_pos hpc, if_pos hpc]
    · rw [if_neg hpc, if_neg hpc, Function.update_of_ne (hne p hpc)]

/-- Completing a partition at its first message beyond the window: what it still has is
out of the window. -/
private theorem past_spec (hsorted : KafkaSorted topic) {ends : List Nat}
    {completed : Finset Nat} {m : KafkaMessage} (hm : st.Fetched topic choice ends completed m)
    (hend : w.end_ms < m.timestamp) (h : Consuming topic st ends completed none)
    {outcome : StreamStep KafkaStream}
    (hnext : (st.advance choice (st.position choice)).next topic ends (insert choice completed)
      = outcome) (hs : outcome = .more st' ∨ outcome = .done st') :
    (outcome = .more st' → Inv topic st') ∧
      (outcome = .done st' → ∀ p o, o < st'.snapshot p → st'.Passed p o) ∧
      ∀ p o, topic.InWindow w p o → (st'.Passed p o ↔ st.Passed p o) := by
  have hbelow : ∀ o, topic.InWindow w choice o → o < st.position choice := by
    intro o hin
    by_contra ho
    exact not_inWindow_of_late hsorted hm.message_eq hend (by omega) hin
  have hlt := hm.position_lt
  have hnew : ∀ p ∈ insert choice completed, p ∉ completed → ∀ o, topic.InWindow w p o →
      (o < ends.getD p 0 ↔ o < (st.advance choice (st.position choice)).position p) := by
    intro p hp hnot o hin
    obtain rfl := (Finset.mem_insert.mp hp).resolve_right hnot
    have := hbelow o hin
    simp only [advance]
    rw [Function.update_self]
    omega
  have hph : (st.advance choice (st.position choice)).phase = .consuming ends completed none :=
    hm.phase_eq
  obtain ⟨hmore, hdone, hpassed⟩ := round_spec hph h.ends_length h.ends_le
    (fun p hp => h.insert_lt hm.partition_lt hp)
    (fun p hp hnot => h.position_lt_of_insert hp hnot)
    (fun p hp => Finset.mem_insert_of_mem hp) hnew hnext hs
  -- moving over the late message passes that message only
  refine ⟨hmore, hdone, fun p o hin => (hpassed p o hin).trans ?_⟩
  simp only [Passed, advance, hm.phase_eq]
  by_cases hpc : p ∈ completed
  · rw [if_pos hpc, if_pos hpc]
  · rw [if_neg hpc, if_neg hpc]
    by_cases hpch : p = choice
    · subst hpch
      have := hbelow o hin
      rw [Function.update_self]
      omega
    · rw [Function.update_of_ne hpch]

/-- **A step without a `yield`.** It passes no message of the window, provided no message
of the window is in a partition still to be sought to its end; and when the generator
returns, everything below the snapshot is passed. -/
theorem step_silent (hsorted : KafkaSorted topic) (h : Inv topic st)
    (hquiet : ∀ p ∈ st.pending, ∀ o, ¬ topic.InWindow w p o)
    (hs : st.step w topic choice = .more st' ∨ st.step w topic choice = .done st') :
    (st.step w topic choice = .more st' → Inv topic st') ∧
      (st.step w topic choice = .done st' → ∀ p o, o < st'.snapshot p → st'.Passed p o) ∧
      ∀ p o, topic.InWindow w p o → (st'.Passed p o ↔ st.Passed p o) := by
  have htook := step_took w choice h
  generalize st.step w topic choice = outcome at htook hs ⊢
  cases htook with
  | empty hph htopic =>
      obtain rfl : st = st' := by simpa using hs
      refine ⟨fun h' => by contradiction, fun _ p o ho => ?_, fun _ _ _ => Iff.rfl⟩
      simp only [snapshot, hph] at ho
      omega
  -- the seeks move positions, but over nothing of the window
  | looked_up hph =>
      simp only [StreamStep.more.injEq, reduceCtorEq, or_false] at hs
      subst hs
      exact ⟨fun _ => trivial, fun h' => by contradiction,
        fun p o hin => passed_after_lookup hph hin⟩
  -- a partition is sought to its end only if it has nothing of the window
  | sought_end p rest hph =>
      simp only [StreamStep.more.injEq, reduceCtorEq, or_false] at hs
      subst hs
      refine ⟨fun _ => trivial, fun h' => by contradiction, fun q o hin => ?_⟩
      have hp : p ∈ st.pending := by
        simp only [pending, hph]
        exact List.mem_cons_self ..
      exact passed_after_seek_end hph (hquiet p hp) hin
  | snapshot hph _ hnext => exact snapshot_spec hph hnext hs
  | checked ends completed q hph _ hnext =>
      simp only [Inv, hph] at h
      exact checked_spec hph h hnext hs
  | waited ends completed hph =>
      obtain rfl : st = st' := by simpa using hs
      exact ⟨fun _ => h, fun h' => by contradiction, fun _ _ _ => Iff.rfl⟩
  -- a message of a completed partition was past already
  | skipped ends completed o hph hc =>
      simp only [StreamStep.more.injEq, reduceCtorEq, or_false] at hs
      subst hs
      simp only [Inv, hph] at h
      obtain ⟨hinv, hpassed⟩ := skipped_spec (o := o) hph hc h
      exact ⟨fun _ => hinv, fun h' => by contradiction, fun p o' _ => hpassed p o'⟩
  | past ends completed m hm hend _ hnext =>
      simp only [Inv, hm.phase_eq] at h
      exact past_spec hsorted hm hend h hnext hs
  | yielded => simp at hs

/-- **`yield`.** The event is the message at the consumer's position on a partition that
is not completed: below the snapshot, not past the end of the window, not passed; all the
lower offsets of the partition are, and now it is passed too. -/
theorem step_yield {ev : ReplayEvent} (hinv : Inv topic st)
    (hs : st.step w topic choice = .yield ev st') :
    Inv topic st' ∧ ∃ o m, ev = ⟨.kafka choice o, m.value⟩ ∧
      (topic.log choice)[o]? = some m ∧ m.timestamp ≤ w.end_ms ∧ o < st.snapshot choice ∧
      (∀ p, st'.snapshot p = st.snapshot p) ∧
      (∀ o', st.Passed choice o' ↔ o' < o) ∧
      (∀ p o', st'.Passed p o' ↔ st.Passed p o' ∨ (p = choice ∧ o' = o)) := by
  obtain ⟨ends, completed, m, hm, hend, rfl, rfl⟩ := fetched_of_yield hinv hs
  obtain ⟨hph, hc, hcn, hcpos, -, hmsg⟩ := hm
  have h := hinv
  simp only [Inv, hph] at h
  refine ⟨?_, st.position choice, m, rfl, hmsg, hend, ?_, ?_, ?_, ?_⟩
  · -- only the partition of the message has moved, by one
    refine ⟨h.ends_length, h.ends_le, h.completed_lt, fun p hp hnot hr => ?_,
      fun p hr => ?_, h.exists_open⟩
    · have hne : p ≠ choice := by rintro rfl; exact hr rfl
      simp only [advance]
      rw [Function.update_of_ne hne]
      exact h.position_lt p hp hnot (fun h' => by contradiction)
    · rw [Option.some.injEq] at hr
      subst hr
      refine ⟨hcn, hc, ?_⟩
      simp only [advance]
      rw [Function.update_self]
      exact hcpos
  · simpa only [snapshot, hph] using hcpos
  · intro p; simp only [snapshot, hph]
  · intro o'; simp only [Passed, hph, if_neg hc]
  · intro p o'
    simp only [Passed, advance, hph]
    by_cases hpc : p ∈ completed
    · have hne : p ≠ choice := by rintro rfl; exact hc hpc
      simp [hpc, hne]
    · rw [if_neg hpc, if_neg hpc]
      by_cases hpch : p = choice
      · subst hpch
        rw [Function.update_self]
        simp only [true_and]
        omega
      · rw [Function.update_of_ne hpch]
        simp [hpch]

end KafkaStream

end WalStream.Source

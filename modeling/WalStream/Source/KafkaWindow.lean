/-
What `KafkaReplaySource.stream_events` yields, over a whole run of the generator.

The generator runs against a topic that producers keep writing to and a consumer that
interleaves the partitions as it likes. The state of such a run is the topic, the
generator, what it has yielded, what the consumer has delivered, and whether it has
returned. The messages the generator has to yield are written down separately, in
`expected`, from the topic as it stands when the generator starts; the invariant says how
far along `expected` each partition is.

That a partition is no further along than it should be says nothing of a generator that never
moves. So the second half is about getting on: a generator that has not returned always has a
step, some choice of the partition to deliver from gets it on, and only so many steps can do
that before it returns.
-/
import WalStream.Source.Work
import WalStream.Lib.Potential

set_option autoImplicit false

namespace WalStream.Source.KafkaWindow

open Lib

/-! ## Runs of the generator

The generator with its consumer, and producers that write in between. Which partition the
consumer delivers from is open. -/

/-- A run of `stream_events` at one moment. -/
structure State where
  topic : Topic
  stream : KafkaStream
  /-- The events yielded so far, in order. -/
  yielded : List ReplayEvent
  /-- The messages the consumer has delivered so far, as partition and offset. -/
  delivered : List (Nat × Nat)
  /-- Whether the generator has returned. -/
  returned : Bool

/-- A run at its start. -/
def State.initial (topic : Topic) (stream : KafkaStream) : State :=
  { topic := topic, stream := stream, yielded := [], delivered := [], returned := false }

/-- The generator takes a step, the consumer delivering from `choice` if it delivers; or a
producer writes. -/
inductive Action
  | pull (choice : Nat)
  | produce (p : Nat) (m : KafkaMessage)

/-- What a step of the generator makes of the run. -/
def State.outcome (s : State) : StreamStep KafkaStream → Option State
  | .more st => some { s with stream := st }
  | .yield ev st => some { s with stream := st, yielded := s.yielded ++ [ev] }
  | .done st => some { s with stream := st, returned := true }
  | .raise _ => none

/-- One step of the run. Timestamps within a partition do not decrease. -/
def step (w : Window) (s : State) : Action → Option State
  | .pull choice =>
      if s.returned then none else
        State.outcome
          { s with delivered := s.delivered ++ (s.stream.delivery s.topic choice).toList }
          (s.stream.step w s.topic choice)
  | .produce p m =>
      if p < s.topic.length ∧ ∀ m' ∈ s.topic.log p, m'.timestamp ≤ m.timestamp then
        some { s with topic := s.topic.produce p m }
      else none

/-- The generator has taken its high-water snapshot and consumes. -/
def State.IsConsuming (s : State) : Prop :=
  ∃ ends completed resume, s.stream.phase = .consuming ends completed resume

instance (s : State) : Decidable s.IsConsuming :=
  match hph : s.stream.phase with
  | .consuming ends completed resume => isTrue ⟨ends, completed, resume, hph⟩
  | .opened => isFalse (by rintro ⟨_, _, _, h⟩; rw [hph] at h; cases h)
  | .seeking _ => isFalse (by rintro ⟨_, _, _, h⟩; rw [hph] at h; cases h)

/-- Producers only write once the high-water snapshot is taken. -/
def AfterSnapshot (s : State) : Action → Prop
  | .pull _ => True
  | .produce _ _ => s.IsConsuming

instance (s : State) : DecidablePred (AfterSnapshot s)
  | .pull _ => isTrue trivial
  | .produce _ _ => inferInstanceAs (Decidable s.IsConsuming)

/-! ## The window

What a call is asked for, partition by partition and from the log as it was at the snapshot. The
definition knows nothing of the consumer's position. -/

/-- The offset a checkpoint holds for a partition: that of the JSON map, or that of the
single `partition:offset`. -/
def checkpointed : Option Checkpoint → Nat → Option Nat
  | some (.json offsets), p => offsets.get? p
  | some (.id (.kafka q o)), p => if p = q then some o else none
  | _, _ => none

/-- The lower end of the window of a partition: strictly after the checkpointed offset,
else at or after the first offset whose timestamp reaches the start. -/
def inRange (cp : Option Checkpoint) (w : Window) (log : List KafkaMessage) (p o : Nat) : Bool :=
  match checkpointed cp p with
  | some c => decide (c < o)
  | none =>
      match offsets_for_times log w.start_ms with
      | some f => decide (f ≤ o)
      | none => false

/-- The timestamp at offset `o` is not past the end of the window. -/
def notPast (w : Window) (log : List KafkaMessage) (o : Nat) : Bool :=
  match log[o]? with
  | some m => decide (m.timestamp ≤ w.end_ms)
  | none => false

/-- The event of the message at offset `o` of partition `p`. -/
def eventAt (log : List KafkaMessage) (p o : Nat) : Option ReplayEvent :=
  log[o]?.map fun m => ⟨.kafka p o, m.value⟩

/-- What is to be yielded from partition `p`, whose log is `log` at the snapshot. -/
def expected (cp : Option Checkpoint) (w : Window) (log : List KafkaMessage) (p : Nat) :
    List ReplayEvent :=
  ((List.range (end_offset log)).filter fun o =>
    inRange cp w log p o && notPast w log o).filterMap (eventAt log p)

/-- The event comes from partition `p`. -/
def isFrom (p : Nat) (ev : ReplayEvent) : Bool :=
  match ev.message_id with
  | .kafka q _ => decide (q = p)
  | .redis _ => false

/-- What a run has yielded from partition `p`, in order. -/
def State.yieldedFrom (s : State) (p : Nat) : List ReplayEvent := s.yielded.filter (isFrom p)

/-- Partition `p`, whose log was `log` at the snapshot, has delivered all it has to: its
last message below the snapshot, or one past the end of the window. A partition whose
window starts at or beyond the snapshot has nothing to deliver. -/
def State.Finished (s : State) (cp : Option Checkpoint) (w : Window) (log : List KafkaMessage)
    (p : Nat) : Prop :=
  (∀ o < end_offset log, inRange cp w log p o = false) ∨
  (∃ o, o + 1 = end_offset log ∧ (p, o) ∈ s.delivered) ∨
  (∃ o m, log[o]? = some m ∧ w.end_ms < m.timestamp ∧ (p, o) ∈ s.delivered)

/-- The generator stands at a `yield`. -/
def State.Suspended (s : State) : Prop :=
  ∃ ends completed q, s.stream.phase = .consuming ends completed (some q)

/-! ## The expected events as an interval

Since timestamps do not decrease in a partition, what is expected of it is a row of offsets from
a lowest one on, and up to the first message past the window. -/

/-- The first offset of partition `p` that is not below the window. -/
def lowest (cp : Option Checkpoint) (w : Window) (log : List KafkaMessage) (p : Nat) : Nat :=
  match checkpointed cp p with
  | some c => c + 1
  | none =>
      match offsets_for_times log w.start_ms with
      | some f => f
      | none => end_offset log

theorem inRange_eq {cp : Option Checkpoint} {w : Window} {log : List KafkaMessage} {p o : Nat}
    (ho : o < end_offset log) : inRange cp w log p o = decide (lowest cp w log p ≤ o) := by
  unfold inRange lowest
  cases checkpointed cp p with
  | some c => exact decide_eq_decide.mpr Nat.succ_le_iff.symm
  | none =>
      cases offsets_for_times log w.start_ms with
      | some f => rfl
      | none => simp only [decide_eq_decide.mpr (not_le.mpr ho |> iff_false_intro), decide_false]

/-- The events of the offsets `[lo, k)`. -/
def interval (log : List KafkaMessage) (p lo k : Nat) : List ReplayEvent :=
  (List.range' lo (k - lo)).filterMap (eventAt log p)

theorem interval_self (log : List KafkaMessage) (p lo : Nat) : interval log p lo lo = [] := by
  simp [interval]

theorem interval_succ {log : List KafkaMessage} {p lo k : Nat} {m : KafkaMessage} (hlk : lo ≤ k)
    (hm : log[k]? = some m) :
    interval log p lo (k + 1) = interval log p lo k ++ [⟨.kafka p k, m.value⟩] := by
  have hk : k + 1 - lo = (k - lo) + 1 := by omega
  rw [interval, hk, List.range'_concat, List.filterMap_append, interval,
    show lo + 1 * (k - lo) = k by omega]
  simp [eventAt, hm]

/-- The expected events are those of `[lowest, k)` when the window ends at `k`. -/
theorem expected_eq_interval {cp : Option Checkpoint} {w : Window} {log : List KafkaMessage}
    {p k : Nat} (hlk : lowest cp w log p ≤ k) (hkn : k ≤ end_offset log)
    (hin : ∀ o, lowest cp w log p ≤ o → o < k → notPast w log o = true)
    (hout : ∀ o, k ≤ o → o < end_offset log → notPast w log o = false) :
    expected cp w log p = interval log p (lowest cp w log p) k := by
  rw [expected, interval, ← filter_range_eq_range' hlk hkn hin hout]
  congr 1
  refine List.filter_congr fun o ho => ?_
  rw [inRange_eq (List.mem_range.mp ho)]

/-- Nothing is expected from a partition whose window starts beyond its snapshot. -/
theorem expected_eq_nil {cp : Option Checkpoint} {w : Window} {log : List KafkaMessage} {p : Nat}
    (h : end_offset log ≤ lowest cp w log p) : expected cp w log p = [] := by
  have hnil : (List.range (end_offset log)).filter
      (fun o => inRange cp w log p o && notPast w log o) = [] := by
    rw [List.filter_eq_nil_iff]
    intro o ho
    rw [inRange_eq (List.mem_range.mp ho)]
    have := List.mem_range.mp ho
    simp only [Bool.and_eq_true, decide_eq_true_eq, not_and]
    omega
  rw [expected, hnil, List.filterMap_nil]

/-- Every part of the interval before the end of the window is a prefix of what is
expected. -/
theorem interval_prefix_expected {cp : Option Checkpoint} {w : Window} {log : List KafkaMessage}
    {p k : Nat} (hlk : lowest cp w log p ≤ k) (hkn : k ≤ end_offset log)
    (hin : ∀ o, lowest cp w log p ≤ o → o < k → notPast w log o = true) :
    interval log p (lowest cp w log p) k <+: expected cp w log p := by
  -- the offsets up to `k` give the interval, and the rest comes after it
  have hsplit : List.range (end_offset log)
      = List.range k ++ List.range' k (end_offset log - k) := by
    have h := List.range'_append_1 (s := 0) (m := k) (n := end_offset log - k)
    rw [show 0 + k = k by omega, show k + (end_offset log - k) = end_offset log by omega] at h
    rw [List.range_eq_range', List.range_eq_range', h]
  have hlow : (List.range k).filter (fun o => inRange cp w log p o && notPast w log o)
      = List.range' (lowest cp w log p) (k - lowest cp w log p) := by
    rw [← filter_range_eq_range' hlk (Nat.le_refl k) hin (fun o ho ho' => by omega)]
    refine List.filter_congr fun o ho => ?_
    rw [inRange_eq (by have := List.mem_range.mp ho; omega)]
  rw [expected, interval, hsplit, List.filter_append, List.filterMap_append, hlow]
  exact List.prefix_append _ _

/-! ## The invariant

A partition is completed, and has yielded what was expected of it, or it is open, and has
yielded the interval up to its position. Before the snapshot nothing has been yielded, and the
positions are at the lower ends. -/

section

variable {cp : Option Checkpoint} {w : Window} {topic₀ : Topic} {s t : State}

/-- How far an open partition is: everything from the lower end of its window up to the
consumer's position was delivered and yielded, and none of it is past the window. -/
structure OpenPartition (cp : Option Checkpoint) (w : Window) (log : List KafkaMessage)
    (s : State) (p : Nat) : Prop where
  lowest_le : lowest cp w log p ≤ s.stream.position p
  yielded_eq : s.yieldedFrom p = interval log p (lowest cp w log p) (s.stream.position p)
  notPast : ∀ o, lowest cp w log p ≤ o → o < s.stream.position p → notPast w log o = true
  delivered_lt : ∀ o, (p, o) ∈ s.delivered → lowest cp w log p ≤ o ∧ o < s.stream.position p

/-- The invariant while consuming: the snapshot is the one of the topic the generator
started on, a completed partition has yielded what was expected, and an open one is on its
way. Nothing is yielded from a partition the topic lacks. -/
structure Consuming (cp : Option Checkpoint) (w : Window) (topic₀ : Topic) (s : State)
    (ends : List Nat) (completed : Finset Nat) : Prop where
  ends_eq : ends = topic₀.map end_offset
  length_eq : s.topic.length = topic₀.length
  log_prefix : ∀ p, topic₀.log p <+: s.topic.log p
  sorted : KafkaSorted s.topic
  running : s.returned = false → KafkaStream.Inv s.topic s.stream
  finished : s.returned = true → ∀ p < topic₀.length, p ∈ completed
  done_eq : ∀ p ∈ completed, s.yieldedFrom p = expected cp w (topic₀.log p) p
  open_partition : ∀ p < topic₀.length, p ∉ completed →
    OpenPartition cp w (topic₀.log p) s p
  from_topic : ∀ ev ∈ s.yielded, ∃ p < topic₀.length, isFrom p ev = true

/-- The invariant of a run. Up to the snapshot the topic is the one the generator started
on, nothing is delivered, and every partition that is sought stands at the lower end of its
window. -/
def Inv (cp : Option Checkpoint) (w : Window) (topic₀ : Topic) (s : State) : Prop :=
  match s.stream.phase with
  | .opened => s.topic = topic₀ ∧ s.yielded = [] ∧ s.delivered = [] ∧
      (∀ p, s.stream.offsets.get? p = checkpointed cp p) ∧ (s.returned = true → topic₀ = [])
  | .seeking pending => s.topic = topic₀ ∧ s.yielded = [] ∧ s.delivered = [] ∧
      s.returned = false ∧
      (∀ p < topic₀.length, p ∉ pending → s.stream.position p = lowest cp w (topic₀.log p) p) ∧
      (∀ p ∈ pending, lowest cp w (topic₀.log p) p = end_offset (topic₀.log p))
  | .consuming ends completed _ => Consuming cp w topic₀ s ends completed

/-- Below the snapshot the log has not changed since. -/
theorem getElem?_of_prefix {l₁ l₂ : List KafkaMessage} {o : Nat} {m : KafkaMessage}
    (h : l₁ <+: l₂) (ho : o < l₁.length) (hm : l₂[o]? = some m) : l₁[o]? = some m := by
  obtain ⟨l, rfl⟩ := h
  rwa [List.getElem?_append_left ho] at hm

theorem notPast_of_getElem? {log : List KafkaMessage} {o : Nat} {m : KafkaMessage}
    (hm : log[o]? = some m) : notPast w log o = decide (m.timestamp ≤ w.end_ms) := by
  rw [notPast, hm]

/-- Past its first message beyond the window a partition stays beyond it. -/
theorem notPast_false_of_le {log : List KafkaMessage} {o o' : Nat} {m : KafkaMessage}
    (hsorted : log.Pairwise fun a b => a.timestamp ≤ b.timestamp) (hm : log[o]? = some m)
    (hlate : w.end_ms < m.timestamp) (ho : o ≤ o') (ho' : o' < end_offset log) :
    notPast w log o' = false := by
  obtain ⟨hlt, rfl⟩ := List.getElem?_eq_some_iff.mp hm
  rw [notPast_of_getElem? (List.getElem?_eq_getElem ho'), decide_eq_false_iff_not]
  have hle : log[o].timestamp ≤ log[o'].timestamp := by
    rcases Nat.eq_or_lt_of_le ho with rfl | ho
    · exact Nat.le_refl _
    · exact List.pairwise_iff_getElem.mp hsorted _ _ hlt ho' ho
  omega

/-! ## Seeking

The positions after the seeks are where the windows of the partitions begin. -/

theorem lookup_position (hoff : ∀ p, s.stream.offsets.get? p = checkpointed cp p) {p : Nat}
    (hp : p < topic₀.length) (hnot : p ∉ s.stream.unsought w topic₀) :
    s.stream.sought w topic₀ p = lowest cp w (topic₀.log p) p := by
  simp only [KafkaStream.unsought, List.mem_filter, List.mem_range, hp, true_and,
    Bool.and_eq_true, Option.isNone_iff_eq_none, not_and] at hnot
  unfold KafkaStream.sought lowest
  rw [hoff] at hnot ⊢
  cases hc : checkpointed cp p with
  | some c => rfl
  | none =>
      cases hf : offsets_for_times (topic₀.log p) w.start_ms with
      | some f => rfl
      | none => exact absurd hf (hnot hc)

theorem lookup_pending (hoff : ∀ p, s.stream.offsets.get? p = checkpointed cp p) {p : Nat}
    (hp : p ∈ s.stream.unsought w topic₀) :
    lowest cp w (topic₀.log p) p = end_offset (topic₀.log p) := by
  simp only [KafkaStream.unsought, List.mem_filter, Bool.and_eq_true,
    Option.isNone_iff_eq_none] at hp
  unfold lowest
  rw [← hoff, hp.2.1, hp.2.2]

/-- Taking the snapshot: the partitions whose window is empty are completed, the others
start at the lower end of theirs. -/
theorem snapshot_consuming (cp : Option Checkpoint) (w : Window) (hsorted : KafkaSorted topic₀) (htopic : s.topic = topic₀)
    (hy : s.yielded = []) (hd : s.delivered = [])
    (hpos : ∀ p < topic₀.length, s.stream.position p = lowest cp w (topic₀.log p) p)
    (st : KafkaStream) (hst : st.position = s.stream.position) (returned : Bool)
    (hrun : returned = false → KafkaStream.Inv topic₀ st)
    (hfin : returned = true → ∀ p < topic₀.length, p ∈ (List.range topic₀.length).foldl
      (mark_completed_if_at_end (topic₀.map end_offset) s.stream.position) ∅) :
    Consuming cp w topic₀ { s with stream := st, returned := returned }
      (topic₀.map end_offset)
      ((List.range topic₀.length).foldl
        (mark_completed_if_at_end (topic₀.map end_offset) s.stream.position) ∅) := by
  have hmem : ∀ p, p ∈ (List.range topic₀.length).foldl
        (mark_completed_if_at_end (topic₀.map end_offset) s.stream.position) ∅ ↔
      p < topic₀.length ∧ end_offset (topic₀.log p) ≤ s.stream.position p := by
    intro p
    rw [KafkaStream.mem_foldl_mark, KafkaStream.ends_getD]
    simp
  refine ⟨rfl, by rw [htopic], fun p => by rw [htopic], by rwa [htopic], ?_, hfin, ?_, ?_, ?_⟩
  · rw [htopic]; exact hrun
  -- completed at the snapshot: nothing was expected of the partition
  · intro p hp
    obtain ⟨hpn, hle⟩ := (hmem p).mp hp
    rw [expected_eq_nil (by rw [← hpos p hpn]; exact hle)]
    simp [State.yieldedFrom, hy]
  -- open: it stands at the lower end of its window, with nothing yielded yet
  · intro p hpn hnot
    have hlo := hpos p hpn
    refine ⟨?_, ?_, ?_, ?_⟩
    · dsimp only; rw [hst, hlo]
    · dsimp only
      rw [hst, hlo, interval_self]
      simp [State.yieldedFrom, hy]
    · intro o ho ho'
      dsimp only at ho'
      rw [hst, hlo] at ho'
      omega
    · intro o ho
      dsimp only at ho
      rw [hd] at ho
      cases ho
  · intro ev hev
    rw [hy] at hev
    cases hev

/-! ## Consuming

One lemma for each thing a poll can bring. The partitions that the poll is not about stay as
they are, which is most of what there is to be said. -/

/-- The end of a loop round either goes on or returns with every partition completed. -/
theorem outcome_next {st : KafkaStream} {ends : List Nat} {completed : Finset Nat}
    (hret : s.returned = false) (hlen : ends.length = s.topic.length)
    (hle : ∀ p, ends.getD p 0 ≤ (s.topic.log p).length)
    (hlt : ∀ p ∈ completed, p < s.topic.length)
    (hpos : ∀ p < s.topic.length, p ∉ completed → st.position p < ends.getD p 0)
    (h : s.outcome (st.next s.topic ends completed) = some t) :
    ∃ r, t = { s with
        stream := { st with phase := .consuming ends completed none }, returned := r } ∧
      (r = false → KafkaStream.Inv s.topic t.stream) ∧
      (r = true → ∀ p < s.topic.length, p ∈ completed) := by
  -- the round goes on or returns; it neither yields nor raises
  cases hn : st.next s.topic ends completed with
  | more st' =>
      obtain ⟨rfl, hinv⟩ := (KafkaStream.next_spec hlen hle hlt hpos).1 hn
      rw [hn, State.outcome, Option.some.injEq] at h
      refine ⟨false, ?_, fun _ => ?_, fun h' => by contradiction⟩
      · rw [← h, ← hret]
      · rw [← h]; exact hinv
  | done st' =>
      obtain ⟨rfl, hall⟩ := (KafkaStream.next_spec hlen hle hlt hpos).2 hn
      rw [hn, State.outcome, Option.some.injEq] at h
      exact ⟨true, h.symm, fun h' => by contradiction, fun _ => hall⟩
  | yield ev st' =>
      rw [KafkaStream.next] at hn
      split at hn <;> cases hn
  | raise e => rw [hn, State.outcome] at h; cases h

/-- An open partition stays as it is when the step is about another one. -/
theorem OpenPartition.congr {log : List KafkaMessage} {p : Nat} (h : OpenPartition cp w log s p)
    (hpos : t.stream.position p = s.stream.position p)
    (hy : t.yieldedFrom p = s.yieldedFrom p)
    (hd : ∀ o, (p, o) ∈ t.delivered → (p, o) ∈ s.delivered) : OpenPartition cp w log t p := by
  refine ⟨by rw [hpos]; exact h.lowest_le, by rw [hy, hpos]; exact h.yielded_eq, ?_, ?_⟩
  · rw [hpos]; exact h.notPast
  · intro o ho
    rw [hpos]
    exact h.delivered_lt o (hd o ho)

/-- An open partition whose window ends at the position has yielded what was expected. -/
theorem OpenPartition.expected_eq {log : List KafkaMessage} {p : Nat}
    (h : OpenPartition cp w log s p) (hle : s.stream.position p ≤ end_offset log)
    (hout : ∀ o, s.stream.position p ≤ o → o < end_offset log →
      KafkaWindow.notPast w log o = false) :
    s.yieldedFrom p = expected cp w log p := by
  rw [h.yielded_eq, expected_eq_interval h.lowest_le hle h.notPast hout]

/-- Delivering the message at the position of an open partition, if it is not past the
window, moves the position and yields it. -/
theorem OpenPartition.deliver {log : List KafkaMessage} {p : Nat} {m : KafkaMessage}
    (h : OpenPartition cp w log s p) (hm : log[s.stream.position p]? = some m)
    (hend : m.timestamp ≤ w.end_ms)
    (hpos : t.stream.position p = s.stream.position p + 1)
    (hy : t.yielded = s.yielded ++ [⟨.kafka p (s.stream.position p), m.value⟩])
    (hd : t.delivered = s.delivered ++ [(p, s.stream.position p)]) :
    OpenPartition cp w log t p := by
  have hlo := h.lowest_le
  refine ⟨by omega, ?_, ?_, ?_⟩
  · rw [hpos, interval_succ hlo hm, ← h.yielded_eq]
    simp [State.yieldedFrom, hy, List.filter_append, isFrom]
  · intro o ho ho'
    rcases Nat.lt_or_ge o (s.stream.position p) with hlt | hge
    · exact h.notPast o ho hlt
    · obtain rfl : o = s.stream.position p := by omega
      rw [notPast_of_getElem? hm]
      exact decide_eq_true hend
  · intro o ho
    rw [hd, List.mem_append, List.mem_singleton] at ho
    rcases ho with ho | ho
    · have := h.delivered_lt o ho
      omega
    · cases ho
      omega

theorem Consuming.inv {ends : List Nat} {completed : Finset Nat} {resume : Option Nat}
    (h : Consuming cp w topic₀ s ends completed)
    (hph : s.stream.phase = .consuming ends completed resume) : Inv cp w topic₀ s := by
  simp only [Inv, hph]
  exact h

theorem Consuming.ends_getD {ends : List Nat} {completed : Finset Nat}
    (h : Consuming cp w topic₀ s ends completed) (p : Nat) :
    ends.getD p 0 = end_offset (topic₀.log p) := by
  rw [h.ends_eq, KafkaStream.ends_getD]

/-- The check after a `yield`: a partition it completes stands at the end of its
snapshot. -/
theorem Consuming.checked {ends : List Nat} {completed : Finset Nat} {q : Nat}
    (hC : Consuming cp w topic₀ s ends completed) (hret : s.returned = false)
    (hK : KafkaStream.Consuming s.topic s.stream ends completed (some q))
    (h : s.outcome (s.stream.next s.topic ends
      (mark_completed_if_at_end ends s.stream.position completed q)) = some t) :
    Inv cp w topic₀ t := by
  obtain ⟨hqn, hqnot, hqle⟩ := hK.position_le q rfl
  obtain ⟨r, rfl, hrun, hfin⟩ := outcome_next hret hK.ends_length hK.ends_le
    (fun p hp => hK.mark_lt hp) (fun p hp hnot => hK.position_lt_of_mark hp hnot) h
  refine Consuming.inv ⟨hC.ends_eq, hC.length_eq, hC.log_prefix, hC.sorted, hrun, ?_, ?_, ?_,
    hC.from_topic⟩ rfl
  · intro hr
    rw [← hC.length_eq]
    exact hfin hr
  · intro p hp
    by_cases hpc : p ∈ completed
    · exact hC.done_eq p hpc
    · obtain ⟨rfl, -, hge⟩ := (KafkaStream.mem_mark.mp hp).resolve_left hpc
      have hopen := hC.open_partition p (by rw [← hC.length_eq]; exact hqn) hqnot
      rw [hC.ends_getD] at hqle hge
      exact hopen.expected_eq hqle (fun o ho ho' => by omega)
  · intro p hp hnot
    have hpc : p ∉ completed := fun h' => hnot (KafkaStream.mem_mark.mpr (Or.inl h'))
    exact (hC.open_partition p hp hpc).congr rfl rfl (fun o ho => ho)

/-- The consumer moves over a message of a completed partition. -/
theorem Consuming.skipped {ends : List Nat} {completed : Finset Nat} {choice o : Nat}
    (hC : Consuming cp w topic₀ s ends completed) (hret : s.returned = false)
    (hc : choice ∈ completed)
    (hinv : KafkaStream.Inv s.topic (s.stream.advance choice o)) :
    Consuming cp w topic₀
      { s with
        stream := s.stream.advance choice o, delivered := s.delivered ++ [(choice, o)] }
      ends completed := by
  refine ⟨hC.ends_eq, hC.length_eq, hC.log_prefix, hC.sorted, fun _ => hinv,
    fun hr => (by rw [hret] at hr; cases hr), hC.done_eq, fun p hp hnot => ?_, hC.from_topic⟩
  have hne : p ≠ choice := by rintro rfl; exact hnot hc
  refine (hC.open_partition p hp hnot).congr (Function.update_of_ne hne _ _) rfl (fun o' ho => ?_)
  simpa [hne] using ho

/-- The first message past the window completes its partition: all of its window is below
the position. -/
theorem Consuming.past {ends : List Nat} {completed : Finset Nat} {choice : Nat}
    {m : KafkaMessage} (hC : Consuming cp w topic₀ s ends completed) (hret : s.returned = false)
    (hK : KafkaStream.Consuming s.topic s.stream ends completed none)
    (hm : s.stream.Fetched s.topic choice ends completed m) (hend : w.end_ms < m.timestamp)
    (h : State.outcome
      { s with delivered := s.delivered ++ [(choice, s.stream.position choice)] }
      ((s.stream.advance choice (s.stream.position choice)).next s.topic ends
        (insert choice completed)) = some t) : Inv cp w topic₀ t := by
  obtain ⟨r, rfl, hrun, hfin⟩ := outcome_next
    (s := { s with delivered := s.delivered ++ [(choice, s.stream.position choice)] })
    hret hK.ends_length hK.ends_le (fun p hp => hK.insert_lt hm.partition_lt hp)
    (fun p hp hnot => hK.position_lt_of_insert hp hnot) h
  refine Consuming.inv ⟨hC.ends_eq, hC.length_eq, hC.log_prefix, hC.sorted, hrun, ?_, ?_, ?_,
    hC.from_topic⟩ rfl
  · intro hr
    rw [← hC.length_eq]
    exact hfin hr
  · intro p hp
    by_cases hpc : p ∈ completed
    · exact hC.done_eq p hpc
    · obtain rfl := (Finset.mem_insert.mp hp).resolve_right hpc
      have hopen := hC.open_partition p (by rw [← hC.length_eq]; exact hm.partition_lt) hpc
      have hpos := hm.position_lt
      rw [hC.ends_getD] at hpos
      -- what the consumer reads below the snapshot was there at the snapshot
      have hm₀ := getElem?_of_prefix (hC.log_prefix p) hpos hm.message_eq
      have hsorted₀ := (hC.sorted p).sublist (hC.log_prefix p).sublist
      exact hopen.expected_eq (by omega)
        (fun o ho ho' => notPast_false_of_le hsorted₀ hm₀ hend ho ho')
  · intro p hp hnot
    rw [Finset.mem_insert, not_or] at hnot
    refine (hC.open_partition p hp hnot.2).congr ?_ rfl (fun o ho => ?_)
    · simp only [KafkaStream.advance]
      exact Function.update_of_ne hnot.1 _ _
    · simpa [hnot.1] using ho

/-- The message at the position of an open partition is yielded. -/
theorem Consuming.yielded {ends : List Nat} {completed : Finset Nat} {choice : Nat}
    {m : KafkaMessage} (hC : Consuming cp w topic₀ s ends completed) (hret : s.returned = false)
    (hm : s.stream.Fetched s.topic choice ends completed m) (hend : m.timestamp ≤ w.end_ms)
    {st : KafkaStream} (hst : st = { s.stream.advance choice (s.stream.position choice) with
      phase := .consuming ends completed (some choice) })
    (hinv : KafkaStream.Inv s.topic st) :
    Consuming cp w topic₀
      { s with
        stream := st
        yielded := s.yielded ++ [⟨.kafka choice (s.stream.position choice), m.value⟩]
        delivered := s.delivered ++ [(choice, s.stream.position choice)] }
      ends completed := by
  subst hst
  have hother : ∀ p, p ≠ choice →
      isFrom p ⟨.kafka choice (s.stream.position choice), m.value⟩ = false := by
    intro p hne
    simp [isFrom, Ne.symm hne]
  refine ⟨hC.ends_eq, hC.length_eq, hC.log_prefix, hC.sorted, fun _ => hinv,
    fun hr => (by rw [hret] at hr; cases hr), fun p hp => ?_, fun p hp hnot => ?_,
    fun ev hp => ?_⟩
  · have hne : p ≠ choice := by rintro rfl; exact hm.not_completed hp
    rw [← hC.done_eq p hp]
    simp [State.yieldedFrom, List.filter_append, hother p hne]
  -- the partition of the message moves on by one, the others stay
  · by_cases hpch : p = choice
    · subst hpch
      -- below the snapshot the log is the one the generator started on
      have hpos := hm.position_lt
      rw [hC.ends_getD] at hpos
      have hm₀ := getElem?_of_prefix (hC.log_prefix p) hpos hm.message_eq
      exact (hC.open_partition p hp hnot).deliver hm₀ hend (by simp [KafkaStream.advance]) rfl rfl
    · refine (hC.open_partition p hp hnot).congr ?_ ?_ (fun o ho => ?_)
      · simp only [KafkaStream.advance]
        exact Function.update_of_ne hpch _ _
      · simp [State.yieldedFrom, List.filter_append, hother p hpch]
      · simpa [hpch] using ho
  · rcases List.mem_append.mp hp with hp | hp
    · exact hC.from_topic _ hp
    · rw [List.mem_singleton.mp hp]
      exact ⟨choice, by rw [← hC.length_eq]; exact hm.partition_lt, by simp [isFrom]⟩

/-- A producer's write keeps the invariant while consuming: the logs only grow. -/
theorem Consuming.produce {ends : List Nat} {completed : Finset Nat} {p : Nat} {m : KafkaMessage}
    (hC : Consuming cp w topic₀ s ends completed) (hp : p < s.topic.length)
    (hm : ∀ m' ∈ s.topic.log p, m'.timestamp ≤ m.timestamp) :
    Consuming cp w topic₀ { s with topic := s.topic.produce p m } ends completed := by
  refine ⟨hC.ends_eq, by simpa using hC.length_eq, fun q => ?_,
    hC.sorted.produce hp hm, fun hr => ?_, hC.finished, hC.done_eq, fun q hq hnot => ?_,
    hC.from_topic⟩
  · exact (hC.log_prefix q).trans (s.topic.log_prefix_produce p q m)
  · exact (hC.running hr).grow (s.topic.length_produce p m)
      fun q => s.topic.log_prefix_produce p q m
  · exact (hC.open_partition q hq hnot).congr rfl rfl (fun _ ho => ho)

/-! ## Runs -/

/-- Opening the generator on a checkpoint that is not a Redis id succeeds, and what it
starts from is the offset checkpointed for each partition. -/
theorem open_checkpointed (topic : Topic) (position : Nat → Nat)
    (hcp : ∀ id, cp ≠ some (.id (.redis id))) :
    ∃ st₀, KafkaStream.open topic position cp = .ok st₀ ∧ st₀.phase = .opened ∧
      ∀ p, st₀.offsets.get? p = checkpointed cp p := by
  rcases cp with _ | ⟨offsets⟩ | ⟨id | ⟨q, o⟩⟩
  · exact ⟨_, rfl, rfl, fun p => rfl⟩
  · exact ⟨_, rfl, rfl, fun p => rfl⟩
  · exact absurd rfl (hcp id)
  · refine ⟨_, rfl, rfl, fun p => ?_⟩
    rw [Dict.get?_set, Dict.get?_empty, checkpointed]

/-- The steps before the snapshot keep the invariant. -/
theorem sought_end_inv {p : Nat} {rest : List Nat}
    (hph : s.stream.phase = .seeking (p :: rest)) (hI : Inv cp w topic₀ s) :
    Inv cp w topic₀
      { s with
        stream := { s.stream with
          position := Function.update s.stream.position p (end_offset (s.topic.log p)),
          phase := .seeking rest } } := by
  simp only [Inv, hph] at hI
  obtain ⟨htopic, hy, hd, hret, hpos, hend⟩ := hI
  refine ⟨htopic, hy, hd, hret, fun q hq hnot => ?_, fun q hq => ?_⟩
  · dsimp only
    by_cases hqp : q = p
    · subst hqp
      rw [Function.update_self, htopic, hend q (List.mem_cons_self ..)]
    · rw [Function.update_of_ne hqp]
      exact hpos q hq (by simp [hqp, hnot])
  · exact hend q (List.mem_cons_of_mem _ hq)

/-- The snapshot establishes it for the consuming phase. -/
theorem snapshot_inv (hsorted : KafkaSorted topic₀) (hph : s.stream.phase = .seeking [])
    (hI : Inv cp w topic₀ s)
    (h : s.outcome (s.stream.next s.topic (s.topic.map end_offset)
      ((List.range s.topic.length).foldl
        (mark_completed_if_at_end (s.topic.map end_offset) s.stream.position) ∅)) = some t) :
    Inv cp w topic₀ t := by
  simp only [Inv, hph] at hI
  obtain ⟨htopic, hy, hd, hret, hpos, -⟩ := hI
  have hmem : ∀ p, p ∈ (List.range s.topic.length).foldl
        (mark_completed_if_at_end (s.topic.map end_offset) s.stream.position) ∅ ↔
      p < s.topic.length ∧ end_offset (s.topic.log p) ≤ s.stream.position p := by
    intro p
    rw [KafkaStream.mem_foldl_mark, KafkaStream.ends_getD]
    simp
  obtain ⟨r, rfl, hrun, hfin⟩ := outcome_next hret (by simp)
    (fun p => by rw [KafkaStream.ends_getD]; exact Nat.le_refl _)
    (fun p hp => ((hmem p).mp hp).1)
    (fun p hp hnot => by rw [KafkaStream.ends_getD]; rw [hmem] at hnot; omega) h
  have hC := snapshot_consuming cp w hsorted htopic hy hd (fun p hp => hpos p hp (by simp))
    { s.stream with phase := .consuming (s.topic.map end_offset) _ none } rfl
    r (by rw [← htopic]; exact hrun) (by rw [← htopic]; exact hfin)
  simp only [Inv, htopic] at hC ⊢
  exact hC

/-- Until the generator returns, its own invariant holds. -/
theorem Inv.stream_inv (h : Inv cp w topic₀ s) (hret : s.returned = false) :
    KafkaStream.Inv s.topic s.stream := by
  cases hph : s.stream.phase with
  | opened => simp only [KafkaStream.Inv, hph]
  | seeking pending => simp only [KafkaStream.Inv, hph]
  | consuming ends completed resume =>
      simp only [Inv, hph] at h
      exact h.running hret

/-- A step of the generator keeps the invariant. One case for each thing it can do. -/
theorem pull_inv {choice : Nat} (hsorted : KafkaSorted topic₀) (hI : Inv cp w topic₀ s)
    (h : step w s (.pull choice) = some t) : Inv cp w topic₀ t := by
  rw [step] at h
  by_cases hreturned : s.returned = true
  · rw [if_pos hreturned] at h
    cases h
  rw [if_neg hreturned] at h
  have hret : s.returned = false := by simpa using hreturned
  have hinv := hI.stream_inv hret
  have htook := KafkaStream.step_took w choice hinv
  generalize hstep : s.stream.step w s.topic choice = outcome at htook h
  cases htook with
  -- a topic without partitions: the generator returns, having nothing to yield
  | empty hph htopic =>
      simp only [KafkaStream.delivery, hph, Option.toList_none, List.append_nil, State.outcome,
        Option.some.injEq] at h
      simp only [Inv, hph] at hI
      obtain ⟨htopic₀, hy, hd, hoff, -⟩ := hI
      subst h
      simp only [Inv, hph]
      exact ⟨htopic₀, hy, hd, hoff, fun _ => by rw [← htopic₀]; exact htopic⟩
  -- the partitions with an offset are sought, by the checkpoint or by the lookup
  | looked_up hph =>
      simp only [KafkaStream.delivery, hph, Option.toList_none, List.append_nil, State.outcome,
        Option.some.injEq] at h
      simp only [Inv, hph] at hI
      obtain ⟨htopic, hy, hd, hoff, -⟩ := hI
      subst h
      refine ⟨htopic, hy, hd, hret, fun p hp hpp => ?_, fun p hp => ?_⟩
      · rw [htopic] at hpp ⊢
        exact (if_pos hp).trans (lookup_position hoff hp hpp)
      · rw [htopic] at hp
        exact lookup_pending hoff hp
  -- the others are sought to their ends, one at a time
  | sought_end p rest hph =>
      simp only [KafkaStream.delivery, hph, Option.toList_none, List.append_nil, State.outcome,
        Option.some.injEq] at h
      subst h
      exact sought_end_inv hph hI
  -- the first step after which producers may write
  | snapshot hph _ hnext =>
      simp only [KafkaStream.delivery, hph, Option.toList_none, List.append_nil, ← hnext] at h
      exact snapshot_inv hsorted hph hI h
  | checked ends completed q hph _ hnext =>
      simp only [KafkaStream.delivery, hph, Option.toList_none, List.append_nil, ← hnext] at h
      simp only [Inv, hph] at hI
      simp only [KafkaStream.Inv, hph] at hinv
      exact hI.checked hret hinv h
  -- from here on the generator consumes, one case for each thing a poll can bring
  | waited ends completed hph hdel =>
      simp only [hdel, Option.toList_none, List.append_nil, State.outcome,
        Option.some.injEq] at h
      subst h
      exact hI
  | skipped ends completed o hph hc hdel =>
      simp only [hdel, Option.toList_some, State.outcome, Option.some.injEq] at h
      subst h
      simp only [Inv, hph] at hI
      have hinv' := (KafkaStream.step_silent hI.sorted hinv
        (by simp [KafkaStream.pending, hph]) (Or.inl hstep)).1 hstep
      exact (hI.skipped hret hc hinv').inv hph
  | past ends completed m hm hend _ hnext =>
      simp only [hm.delivery_eq, Option.toList_some, ← hnext] at h
      simp only [Inv, hm.phase_eq] at hI
      simp only [KafkaStream.Inv, hm.phase_eq] at hinv
      exact hI.past hret hinv hm hend h
  | yielded ends completed m hm hend =>
      simp only [hm.delivery_eq, Option.toList_some, State.outcome, Option.some.injEq] at h
      subst h
      simp only [Inv, hm.phase_eq] at hI
      exact (hI.yielded hret hm hend rfl (KafkaStream.step_yield hinv hstep).1).inv rfl

/-- **One step keeps the invariant.** -/
theorem inv_step {a : Action} (hsorted : KafkaSorted topic₀) (hI : Inv cp w topic₀ s)
    (hafter : AfterSnapshot s a) (h : step w s a = some t) : Inv cp w topic₀ t := by
  cases a with
  | produce p m =>
      obtain ⟨ends, completed, resume, hph⟩ := hafter
      simp only [Inv, hph] at hI
      rw [step] at h
      split at h
      · rename_i hguard
        cases h
        simp only [Inv, hph]
        exact hI.produce hguard.1 hguard.2
      · cases h
  | pull choice => exact pull_inv hsorted hI h

/-- **Every state of a run satisfies the invariant.** -/
theorem inv_of_run {st₀ : KafkaStream} {tr : List (State × Action)}
    (hsorted : KafkaSorted topic₀) (hph : st₀.phase = .opened)
    (hoff : ∀ p, st₀.offsets.get? p = checkpointed cp p)
    (hrun : Run (step w) (State.initial topic₀ st₀) tr s) (hafter : StepsMeet AfterSnapshot tr) :
    Inv cp w topic₀ s := by
  refine Run.invariant (C := AfterSnapshot) (fun _ _ _ hI ha h => inv_step hsorted hI ha h) ?_
    hrun hafter
  simp only [Inv, State.initial, hph]
  exact ⟨trivial, trivial, trivial, hoff, fun h => by contradiction⟩

/-! ## Exactness

Read off the invariant: a prefix at every moment, and all of it once the generator has returned. -/

/-- Nothing is expected from a partition the topic lacks. -/
theorem expected_of_length_le {p : Nat} (hp : topic₀.length ≤ p) :
    expected cp w (topic₀.log p) p = [] := by
  rw [Topic.log_of_length_le hp]
  rfl

theorem isFrom_inj {p q : Nat} {ev : ReplayEvent} (hp : isFrom p ev = true)
    (hq : isFrom q ev = true) : p = q := by
  cases hid : ev.message_id with
  | redis id => simp [isFrom, hid] at hp
  | kafka r o =>
      simp only [isFrom, hid, decide_eq_true_eq] at hp hq
      rw [← hp, hq]

theorem Consuming.yieldedFrom_of_length_le {ends : List Nat} {completed : Finset Nat} {p : Nat}
    (hC : Consuming cp w topic₀ s ends completed) (hp : topic₀.length ≤ p) :
    s.yieldedFrom p = [] := by
  rw [State.yieldedFrom, List.filter_eq_nil_iff]
  intro ev hev hfrom
  obtain ⟨q, hq, hfrom'⟩ := hC.from_topic ev hev
  have := isFrom_inj hfrom hfrom'
  omega

/-- While consuming, an open partition does not stand beyond its snapshot. -/
theorem Consuming.position_le {ends : List Nat} {completed : Finset Nat} {resume : Option Nat}
    (hph : s.stream.phase = .consuming ends completed resume)
    (hC : Consuming cp w topic₀ s ends completed) {p : Nat} (hp : p < topic₀.length)
    (hnot : p ∉ completed) : s.stream.position p ≤ end_offset (topic₀.log p) := by
  cases hret : s.returned with
  | true => exact absurd (hC.finished hret p hp) hnot
  | false =>
      have hK := hC.running hret
      simp only [KafkaStream.Inv, hph] at hK
      rw [← KafkaStream.ends_getD, ← hC.ends_eq]
      by_cases hr : resume = some p
      · exact (hK.position_le p hr).2.2
      · exact (hK.position_lt p (by rw [hC.length_eq]; exact hp) hnot hr).le

/-- While consuming, what a partition has yielded is a prefix of what is expected of it. -/
theorem Consuming.yieldedFrom_prefix {ends : List Nat} {completed : Finset Nat}
    {resume : Option Nat} (hph : s.stream.phase = .consuming ends completed resume)
    (hC : Consuming cp w topic₀ s ends completed) (p : Nat) :
    s.yieldedFrom p <+: expected cp w (topic₀.log p) p := by
  -- a completed partition has yielded all of it, an open one the part up to its position
  by_cases hp : p < topic₀.length
  · by_cases hc : p ∈ completed
    · rw [hC.done_eq p hc]
    · have hopen := hC.open_partition p hp hc
      rw [hopen.yielded_eq]
      exact interval_prefix_expected hopen.lowest_le (hC.position_le hph hp hc) hopen.notPast
  · rw [hC.yieldedFrom_of_length_le (by omega)]
    exact List.nil_prefix

/-- A finished open partition stands at the end of its snapshot. -/
theorem OpenPartition.end_le_of_finished {log : List KafkaMessage} {p : Nat}
    (h : OpenPartition cp w log s p) (hfin : s.Finished cp w log p) :
    end_offset log ≤ s.stream.position p := by
  have hlo := h.lowest_le
  by_contra hlt
  -- the three ways to be finished
  rcases hfin with hnone | ⟨o, ho, hdel⟩ | ⟨o, m, hm, hlate, hdel⟩
  · have hin := hnone (lowest cp w log p) (by omega)
    rw [inRange_eq (by omega), decide_eq_false_iff_not] at hin
    exact hin (Nat.le_refl _)
  · have := (h.delivered_lt o hdel).2
    omega
  · obtain ⟨hge, hpos⟩ := h.delivered_lt o hdel
    have hpast := h.notPast o hge hpos
    rw [notPast_of_getElem? hm, decide_eq_true_eq] at hpast
    omega

/-- When every partition is finished, the generator has returned, or it stands at its last
`yield` and returns as soon as it is resumed. -/
theorem Consuming.returned_of_finished {ends : List Nat} {completed : Finset Nat}
    {resume : Option Nat} (hph : s.stream.phase = .consuming ends completed resume)
    (hC : Consuming cp w topic₀ s ends completed)
    (hfin : ∀ p < topic₀.length, s.Finished cp w (topic₀.log p) p) :
    s.returned = true ∨
      (s.Suspended ∧ ∀ choice, ∃ t, step w s (.pull choice) = some t ∧ t.returned = true) := by
  cases hret : s.returned with
  | true => exact Or.inl rfl
  | false =>
  have hinv := hC.running hret
  have hK := hinv
  simp only [KafkaStream.Inv, hph] at hK
  have hends : ∀ p, ends.getD p 0 = end_offset (topic₀.log p) := by
    intro p; rw [hC.ends_eq, KafkaStream.ends_getD]
  -- an open partition stands at its end, so the consumer just yielded its last message
  have hopen : ∀ p < s.topic.length, p ∉ completed → resume = some p := by
    intro p hp hnot
    by_contra hne
    have hlt := hK.position_lt p hp hnot hne
    rw [hC.length_eq] at hp
    have hge := (hC.open_partition p hp hnot).end_le_of_finished (hfin p hp)
    rw [hends] at hlt
    omega
  obtain ⟨q, hq, hqnot⟩ := hK.exists_open
  obtain rfl := hopen q hq hqnot
  refine Or.inr ⟨⟨ends, completed, q, hph⟩, fun choice => ?_⟩
  have hge : ends.getD q 0 ≤ s.stream.position q := by
    rw [hC.length_eq] at hq
    rw [hends]
    exact (hC.open_partition q hq hqnot).end_le_of_finished (hfin q hq)
  have hall : ∀ p < s.topic.length,
      p ∈ mark_completed_if_at_end ends s.stream.position completed q := by
    intro p hp
    rw [KafkaStream.mem_mark]
    by_cases hc : p ∈ completed
    · exact Or.inl hc
    · have hpq := hopen p hp hc
      simp only [Option.some.injEq] at hpq
      subst hpq
      exact Or.inr ⟨rfl, by rw [hK.ends_length]; exact hp, hge⟩
  have hlt : ∀ p ∈ mark_completed_if_at_end ends s.stream.position completed q,
      p < s.topic.length := by
    intro p hp
    rcases KafkaStream.mem_mark.mp hp with hp | ⟨rfl, _⟩
    · exact hK.completed_lt p hp
    · exact hq
  simp only [step, hret, Bool.false_eq_true, if_false, KafkaStream.step, hph, KafkaStream.next,
    (KafkaStream.card_eq_length_iff hlt).mpr hall, if_true, State.outcome]
  exact ⟨_, rfl, rfl⟩

/-- Every event is a message of some partition of the topic. -/
theorem Inv.from_topic (hI : Inv cp w topic₀ s) :
    ∀ ev ∈ s.yielded, ∃ p < topic₀.length, isFrom p ev = true := by
  cases hph : s.stream.phase with
  | opened =>
      simp only [Inv, hph] at hI
      simp [hI.2.1]
  | seeking pending =>
      simp only [Inv, hph] at hI
      simp [hI.2.1]
  | consuming ends completed resume =>
      simp only [Inv, hph] at hI
      exact hI.from_topic

/-- What a partition has yielded is a prefix of what is expected of it. -/
theorem Inv.yieldedFrom_prefix (hI : Inv cp w topic₀ s) (p : Nat) :
    s.yieldedFrom p <+: expected cp w (topic₀.log p) p := by
  cases hph : s.stream.phase with
  | opened =>
      simp only [Inv, hph] at hI
      simp [State.yieldedFrom, hI.2.1]
  | seeking pending =>
      simp only [Inv, hph] at hI
      simp [State.yieldedFrom, hI.2.1]
  | consuming ends completed resume =>
      simp only [Inv, hph] at hI
      exact hI.yieldedFrom_prefix hph p

/-- Once the generator has returned every partition has yielded what is expected of it. -/
theorem Inv.yieldedFrom_eq (hI : Inv cp w topic₀ s) (hret : s.returned = true) (p : Nat) :
    s.yieldedFrom p = expected cp w (topic₀.log p) p := by
  cases hph : s.stream.phase with
  | opened =>
      simp only [Inv, hph] at hI
      obtain ⟨_, hy, _, _, hempty⟩ := hI
      rw [expected_of_length_le (by rw [hempty hret]; exact Nat.zero_le p)]
      simp [State.yieldedFrom, hy]
  | seeking pending =>
      simp only [Inv, hph] at hI
      rw [hret] at hI
      cases hI.2.2.2.1
  | consuming ends completed resume =>
      simp only [Inv, hph] at hI
      by_cases hp : p < topic₀.length
      · exact hI.done_eq p (hI.finished hret p hp)
      · rw [expected_of_length_le (by omega), hI.yieldedFrom_of_length_le (by omega)]

/-! ## Getting on

That the generator does return. It is never stuck, and the work it has left is bounded by what
lies below the snapshot, so a consumer that delivers brings it to its end. -/

/-- The step gets the generator on: it is a step of its own, and no idle poll. A poll is idle
that brings nothing, or a message of a partition that is completed already; of either there
may be any number. -/
def State.GetsOn (s : State) : Action → Prop
  | .pull choice => ¬ s.stream.Stalls s.topic choice
  | .produce _ _ => False

instance (s : State) (a : Action) : Decidable (s.GetsOn a) := by
  cases a with
  | pull choice => exact inferInstanceAs (Decidable (¬ _))
  | produce p m => exact instDecidableFalse

/-- The work the generator has left, and one step more for returning. -/
def State.rank (s : State) : Nat := if s.returned then 0 else s.stream.rank s.topic + 1

/-- **The generator is never stuck**: until it returns, a step of it goes on, yields or
returns, whichever partition the consumer delivers from. -/
theorem Inv.exists_pull (hI : Inv cp w topic₀ s) (hret : s.returned = false) (choice : Nat) :
    ∃ t, step w s (.pull choice) = some t := by
  have hnot : ∀ error, s.stream.step w s.topic choice ≠ .raise error :=
    KafkaStream.step_not_raise (hI.stream_inv hret)
  rw [step, hret, if_neg (by decide)]
  cases hstep : s.stream.step w s.topic choice with
  | raise error => exact absurd hstep (hnot error)
  | more st => exact ⟨_, rfl⟩
  | yield ev st => exact ⟨_, rfl⟩
  | done st => exact ⟨_, rfl⟩

/-- A step of the generator leaves no more work, and less if it gets on. -/
theorem Inv.rank_pull {choice : Nat} (hI : Inv cp w topic₀ s)
    (h : step w s (.pull choice) = some t) :
    t.rank + (if s.GetsOn (.pull choice) then 1 else 0) ≤ s.rank := by
  rw [step] at h
  by_cases hreturned : s.returned = true
  · rw [if_pos hreturned] at h
    cases h
  rw [if_neg hreturned] at h
  have hinv := hI.stream_inv (by simpa using hreturned)
  rw [State.rank, State.rank, if_neg hreturned]
  cases hstep : s.stream.step w s.topic choice with
  | raise error =>
      rw [hstep] at h
      cases h
  | more st =>
      rw [hstep] at h
      cases h
      obtain ⟨hle, hlt⟩ := KafkaStream.rank_more hinv hstep
      dsimp only
      rw [if_neg hreturned]
      by_cases hgets : s.GetsOn (.pull choice)
      · rw [if_pos hgets]
        exact Nat.succ_le_succ (hlt hgets)
      · rw [if_neg hgets]
        exact Nat.succ_le_succ hle
  | yield ev st =>
      rw [hstep] at h
      cases h
      have hlt := KafkaStream.rank_yield hinv hstep
      dsimp only
      rw [if_neg hreturned]
      split <;> omega
  -- returning takes the step that was kept for it
  | done st =>
      rw [hstep] at h
      cases h
      simp only [if_true]
      split <;> omega

/-- What producers write once the snapshot is taken is no work for the generator. -/
theorem rank_after_produce {p : Nat} {m : KafkaMessage} (hafter : AfterSnapshot s (.produce p m))
    (h : step w s (.produce p m) = some t) : t.rank ≤ s.rank := by
  obtain ⟨ends, completed, resume, hph⟩ := hafter
  rw [step] at h
  split at h
  · rename_i hguard
    cases h
    have hle : s.stream.rank (s.topic.produce p m)
        ≤ s.stream.rank s.topic + if s.stream.settled then 0 else 2 :=
      KafkaStream.rank_produce m hguard.1
    simp only [KafkaStream.settled, hph, if_true, Nat.add_zero] at hle
    simp only [State.rank]
    split
    · exact Nat.le_refl _
    · exact Nat.succ_le_succ hle
  · cases h

/-- **The steps that get on** are paid for by the work there is at the start. -/
theorem getsOn_bounded {st₀ : KafkaStream} {tr : List (State × Action)}
    (hsorted : KafkaSorted topic₀) (hph : st₀.phase = .opened)
    (hoff : ∀ p, st₀.offsets.get? p = checkpointed cp p)
    (hrun : Run (step w) (State.initial topic₀ st₀) tr s) (hafter : StepsMeet AfterSnapshot tr) :
    s.rank + tr.countP (fun p => decide (p.1.GetsOn p.2))
      ≤ 2 * topic₀.size + topic₀.length + 3 := by
  have hpaid := Run.potential (C := AfterSnapshot) (I := Inv cp w topic₀) State.rank
    (fun s a => if s.GetsOn a then 1 else 0) (fun _ _ => 0)
    (fun s a t hI ha hs => ⟨inv_step hsorted hI ha hs, by
      cases a with
      | pull choice => exact hI.rank_pull hs
      | produce p m => exact rank_after_produce ha hs⟩)
    (inv_of_run hsorted hph hoff Run.nil (stepsMeet_nil _)) hrun hafter
  rw [total_ite, total_zero, Nat.add_zero] at hpaid
  refine hpaid.trans (Nat.le_of_eq ?_)
  simp only [State.rank, State.initial, KafkaStream.rank, hph, Bool.false_eq_true, if_false]

/-- **The generator returns**: from every state, delivering from the right partitions. -/
theorem Inv.exists_return (hsorted : KafkaSorted topic₀) (hI : Inv cp w topic₀ s) :
    ∃ tr t, Run (step w) s tr t ∧ StepsMeet (fun _ a => ∃ choice, a = .pull choice) tr ∧
      Inv cp w topic₀ t ∧ t.returned = true := by
  refine exists_run_of_rank State.rank (fun s hI hret => ?_) hI
  have hret : s.returned = false := by simpa using hret
  obtain ⟨choice, hgets⟩ : ∃ choice, s.GetsOn (.pull choice) :=
    KafkaStream.exists_not_stalls (hI.stream_inv hret)
  obtain ⟨t, ht⟩ := hI.exists_pull hret choice
  have hlt := hI.rank_pull ht
  rw [if_pos hgets] at hlt
  exact ⟨_, t, ⟨choice, rfl⟩, ht, pull_inv hsorted hI ht, hlt⟩

end

/-- **Window exactness.** On any checkpoint but a Redis id, at any position the cached
consumer was left at, the generator opens; and in every run of it in which producers write
only after the snapshot, whatever the order the consumer delivers in:
every event is a message of some partition of the topic; what a partition has yielded is a
prefix, in offset order, of the messages of its window below the snapshot; once the
generator has returned it is all of them; and once every partition is finished the
generator has returned, or is at its last `yield` and returns when it is resumed.

And it gets there: until it returns every choice of the partition is a step, and some choice
gets on; no run has more steps that get on than the topic had work at the start; and from
every state steps of the generator alone lead to its return, with all yielded that was
expected. -/
theorem stream_events_exact (topic₀ : Topic) (w : Window) (cp : Option Checkpoint)
    (position : Nat → Nat) (hsorted : KafkaSorted topic₀)
    (hcp : ∀ id, cp ≠ some (.id (.redis id))) :
    ∃ st₀, KafkaStream.open topic₀ position cp = .ok st₀ ∧
      ∀ tr s, Run (step w) (State.initial topic₀ st₀) tr s → StepsMeet AfterSnapshot tr →
        (∀ ev ∈ s.yielded, ∃ p < topic₀.length, isFrom p ev = true) ∧
        (∀ p, s.yieldedFrom p <+: expected cp w (topic₀.log p) p) ∧
        (s.returned = true → ∀ p, s.yieldedFrom p = expected cp w (topic₀.log p) p) ∧
        (s.IsConsuming → (∀ p < topic₀.length, s.Finished cp w (topic₀.log p) p) →
          s.returned = true ∨ (s.Suspended ∧
            ∀ choice, ∃ t, step w s (.pull choice) = some t ∧ t.returned = true)) ∧
        (s.returned = false → (∀ choice, ∃ t, step w s (.pull choice) = some t) ∧
          ∃ choice, s.GetsOn (.pull choice)) ∧
        tr.countP (fun p => decide (p.1.GetsOn p.2)) ≤ 2 * topic₀.size + topic₀.length + 3 ∧
        ∃ tr' t, Run (step w) s tr' t ∧ StepsMeet (fun _ a => ∃ choice, a = .pull choice) tr' ∧
          t.returned = true ∧ ∀ p, t.yieldedFrom p = expected cp w (topic₀.log p) p := by
  obtain ⟨st₀, hopen, hph₀, hoff⟩ := open_checkpointed topic₀ position hcp
  refine ⟨st₀, hopen, fun tr s hrun hafter => ?_⟩
  have hI := inv_of_run hsorted hph₀ hoff hrun hafter
  refine ⟨hI.from_topic, hI.yieldedFrom_prefix, hI.yieldedFrom_eq, ?_, fun hret => ?_, ?_, ?_⟩
  · rintro ⟨ends, completed, resume, hph⟩ hfin
    simp only [Inv, hph] at hI
    exact hI.returned_of_finished hph hfin
  · exact ⟨hI.exists_pull hret, KafkaStream.exists_not_stalls (hI.stream_inv hret)⟩
  · exact (Nat.le_add_left _ _).trans (getsOn_bounded hsorted hph₀ hoff hrun hafter)
  · obtain ⟨tr', t, hrun', hpulls, hIt, hret⟩ := hI.exists_return hsorted
    exact ⟨tr', t, hrun', hpulls, hret, hIt.yieldedFrom_eq hret⟩

/-! ### A topic of two partitions -/

/-- Partition 0 is checkpointed at its first message and ends past the window; partition 1 is
not checkpointed and ends within it. -/
def twoPartitions : Topic :=
  [[⟨5, sampleRecord "a"⟩, ⟨12, sampleRecord "b"⟩, ⟨30, sampleRecord "x"⟩],
    [⟨9, sampleRecord "c"⟩, ⟨15, sampleRecord "d"⟩]]

/-- The seeks, the snapshot, and a write within the window that comes too late; then partition
1 up to its end, the late message, and partition 0 up to the one past the window. -/
def drained : List Action :=
  [.pull 0, .pull 0, .produce 1 ⟨16, sampleRecord "late"⟩, .pull 1, .pull 0, .pull 1, .pull 0,
    .pull 0, .pull 0]

/-- The generator returns with one message of each partition yielded, and not the late one:
these are the expected ones. -/
theorem stream_events_exact_drained :
    ∃ st₀ tr s, KafkaStream.open twoPartitions (fun _ => 7) (some (.id (.kafka 0 0))) = .ok st₀ ∧
      Run (step ⟨10, 20⟩) (State.initial twoPartitions st₀) tr s ∧ StepsMeet AfterSnapshot tr ∧
      s.returned = true ∧
      s.yielded = [⟨.kafka 1 1, sampleRecord "d"⟩, ⟨.kafka 0 1, sampleRecord "b"⟩] ∧
      ∀ p, s.yieldedFrom p = expected (some (.id (.kafka 0 0))) ⟨10, 20⟩ (twoPartitions.log p) p := by
  obtain ⟨st₀, hopen, h⟩ := stream_events_exact twoPartitions ⟨10, 20⟩ (some (.id (.kafka 0 0)))
    (fun _ => 7) (kafkaSorted_of_logs (by decide)) (by intro id h; cases h)
  cases hopen
  obtain ⟨tr, s, hrun, hafter, hret, hyielded⟩ :
      ∃ tr s, Run (step ⟨10, 20⟩) (State.initial twoPartitions
          { offsets := Dict.empty.set 0 0, position := fun _ => 7, phase := .opened }) tr s ∧
        StepsMeet AfterSnapshot tr ∧ s.returned = true ∧
        s.yielded = [⟨.kafka 1 1, sampleRecord "d"⟩, ⟨.kafka 0 1, sampleRecord "b"⟩] :=
    exists_run_meeting_of_exec drained (by decide) (by decide)
  exact ⟨_, tr, s, rfl, hrun, hafter, hret, hyielded, (h tr s hrun hafter).2.2.1 hret⟩

end WalStream.Source.KafkaWindow

/-
How much work a replay generator still has.

`rank` bounds the number of steps that are left to a generator over logs that stay as they
are. Over Redis every outstanding entry costs three: its share of a page, its `yield`, and the
end of the page. Over Kafka every message below the high-water snapshot costs two, its
delivery and the check after it, and before the snapshot is taken every message of the topic
counts, and every seek.

Not every step of the Kafka generator gets on: a poll of the consumer may be idle, when it has
nothing to deliver, or delivers from a partition that is completed already and the message is
skipped. `Stalls` is that case. It is left out of every count of steps, since neither the
consumer's empty polls nor the messages producers write to a completed partition are bounded
by anything; `exists_not_stalls` says that it is never the only one.
-/
import WalStream.Source.Stream
import Mathlib.Algebra.Order.BigOperators.Group.Finset

set_option autoImplicit false

namespace WalStream.Source

open Lib

/-! ## Redis

What is left to be fetched, and the entries of the page in hand. -/

namespace RedisStream

variable {w : Window} {stream : List RedisEntry} {st st' : RedisStream}

/-- The entries still to come. -/
def outstanding (w : Window) (stream : List RedisEntry) (st : RedisStream) : List RedisEntry :=
  xrange stream (st.bound w) w.end_ms

/-- Three for every entry to come, and for the page at hand what is left to do with it besides
its entries: none is fetched yet, it is to be left, or it has entries and pays from them. -/
def rank (w : Window) (stream : List RedisEntry) (st : RedisStream) : Nat :=
  3 * (st.outstanding w stream).length +
    match st.batch with
    | none => 1
    | some ([], _) => 2
    | some (_ :: _, _) => 0

/-- Fetching a page and leaving it yield nothing, so they have to be paid for. A page that is
fetched has an entry on it, or the generator would return, and a page is left when its entries
have paid for it. -/
theorem rank_more (h : Inv w stream st) (hs : st.step w stream = .more st') :
    st'.rank w stream < st.rank w stream := by
  have hcursor := (step_more h hs).2
  have hsame : st'.outstanding w stream = st.outstanding w stream := by
    simp only [outstanding, bound, hcursor]
  have htook := step_took w stream st
  rw [hs] at htook
  cases htook with
  | fetched hb hpage =>
      obtain ⟨e, es, hcons⟩ := List.exists_cons_of_ne_nil hpage
      rw [rank, rank, hsame, hb]
      simp only [hcons]
      omega
  | full n hb hn =>
      rw [rank, rank, hsame, hb]
      simp only
      omega

/-- A `yield` takes the first outstanding entry away, and with it three. The last entry of a
page leaves two of them for the page, one for leaving it and one for the next call. -/
theorem rank_yield {ev : ReplayEvent} (hsorted : RedisSorted stream) (h : Inv w stream st)
    (hs : st.step w stream = .yield ev st') : st'.rank w stream < st.rank w stream := by
  have htook := step_took w stream st
  rw [hs] at htook
  cases htook with
  | yielded e es n hb =>
      obtain ⟨tl, htl⟩ := h.batch_prefix (e :: es) n hb
      rw [List.cons_append] at htl
      have hbefore : st.outstanding w stream = e :: (es ++ tl) := htl.symm
      have hafter := xrange_after_head hsorted htl.symm
      rw [rank, rank, hbefore, outstanding, bound, hafter, hb]
      cases es with
      | nil =>
          simp only [List.length_append, List.length_cons, List.length_nil]
          omega
      | cons e' es =>
          simp only [List.length_append, List.length_cons]
          omega

/-- An entry added to the stream is one more to come, if it is not past the window. -/
theorem rank_append (e : RedisEntry) :
    st.rank w (stream ++ [e]) ≤ st.rank w stream + if e.id.ms ≤ w.end_ms then 3 else 0 := by
  have hone : (xrange [e] (st.bound w) w.end_ms).length ≤ if e.id.ms ≤ w.end_ms then 1 else 0 := by
    by_cases he : e.id.ms ≤ w.end_ms
    · rw [if_pos he]
      exact List.length_filter_le _ [e]
    · simp [xrange, he]
  have hlen : (st.outstanding w (stream ++ [e])).length
      = (st.outstanding w stream).length + (xrange [e] (st.bound w) w.end_ms).length := by
    simp only [outstanding, xrange, List.filter_append, List.length_append]
  rw [rank, rank, hlen]
  by_cases he : e.id.ms ≤ w.end_ms
  · rw [if_pos he] at hone ⊢
    omega
  · rw [if_neg he] at hone ⊢
    omega

end RedisStream

/-! ## Kafka

Below the snapshot there is a fixed number of messages to come, and one mark for each partition.
Before it the logs may still grow, and the generator is charged with what they hold. -/

/-- The messages of all partitions. -/
def Topic.size (topic : Topic) : Nat := ∑ p ∈ Finset.range topic.length, (topic.log p).length

/-- A write adds one message to the topic. -/
theorem Topic.size_produce (topic : Topic) {p : Nat} (m : KafkaMessage) (hp : p < topic.length) :
    (topic.produce p m).size = topic.size + 1 := by
  have hmem : p ∈ Finset.range topic.length := Finset.mem_range.mpr hp
  simp only [size, length_produce]
  rw [← Finset.add_sum_erase _ _ hmem, ← Finset.add_sum_erase _ (fun q => (topic.log q).length) hmem,
    log_produce_self m hp, List.length_append]
  have hrest : ∑ q ∈ (Finset.range topic.length).erase p, ((topic.produce p m).log q).length
      = ∑ q ∈ (Finset.range topic.length).erase p, (topic.log q).length :=
    Finset.sum_congr rfl fun q hq => by rw [log_produce_of_ne m (Finset.ne_of_mem_erase hq)]
  rw [hrest]
  simp only [List.length_cons, List.length_nil]
  omega

namespace KafkaStream

variable {w : Window} {topic : Topic} {st st' : KafkaStream} {choice : Nat}
variable {ends : List Nat} {completed completed' : Finset Nat} {position : Nat → Nat}

/-- The messages below the snapshot that open partitions have yet to deliver. -/
def undelivered (ends : List Nat) (completed : Finset Nat) (position : Nat → Nat) : Nat :=
  ∑ p ∈ Finset.range ends.length \ completed, (ends.getD p 0 - position p)

/-- Two for every message below the snapshot, and one for the check a `yield` left behind.
Before the snapshot every message of the topic counts, together with the lookup, the seeks and
the snapshot itself. -/
def rank (topic : Topic) (st : KafkaStream) : Nat :=
  match st.phase with
  | .opened => 2 * topic.size + topic.length + 2
  | .seeking pending => 2 * topic.size + pending.length + 1
  | .consuming ends completed resume =>
      2 * undelivered ends completed st.position + if resume.isSome then 1 else 0

/-- The high-water snapshot is taken. -/
def settled (st : KafkaStream) : Bool :=
  match st.phase with
  | .consuming _ _ _ => true
  | _ => false

/-- The step gets nowhere: the consumer has nothing to deliver from the partition, or only
what lies beyond its completion. -/
def Stalls (topic : Topic) (choice : Nat) (st : KafkaStream) : Prop :=
  match st.phase with
  | .consuming _ completed none => st.delivery topic choice = none ∨ choice ∈ completed
  | _ => False

instance (topic : Topic) (choice : Nat) (st : KafkaStream) : Decidable (st.Stalls topic choice) := by
  unfold Stalls
  split
  · infer_instance
  · infer_instance

/-- Completing partitions leaves less to deliver. The loop completes them whenever it looks, so
this is used at every check. -/
theorem undelivered_le (h : completed ⊆ completed') :
    undelivered ends completed' position ≤ undelivered ends completed position :=
  Finset.sum_le_sum_of_subset (Finset.sdiff_subset_sdiff (Finset.Subset.refl _) h)

/-- The positions of completed partitions do not matter. The consumer goes on delivering from
them, and the messages are skipped; such a delivery must not count as progress. -/
theorem undelivered_update_of_mem {p o : Nat} (hp : p ∈ completed) :
    undelivered ends completed (Function.update position p o)
      = undelivered ends completed position := by
  refine Finset.sum_congr rfl fun q hq => ?_
  have hne : q ≠ p := by
    rintro rfl
    exact (Finset.mem_sdiff.mp hq).2 hp
  rw [Function.update_of_ne hne]

/-- A delivery from an open partition. Its position is below its snapshot, or it would be
completed, so there is one message less below it. -/
theorem undelivered_advance {p : Nat} (hlt : p < ends.length) (hp : p ∉ completed)
    (hpos : position p < ends.getD p 0) :
    undelivered ends completed (Function.update position p (position p + 1)) + 1
      = undelivered ends completed position := by
  have hmem : p ∈ Finset.range ends.length \ completed :=
    Finset.mem_sdiff.mpr ⟨Finset.mem_range.mpr hlt, hp⟩
  have hrest : ∑ q ∈ (Finset.range ends.length \ completed).erase p,
        (ends.getD q 0 - Function.update position p (position p + 1) q)
      = ∑ q ∈ (Finset.range ends.length \ completed).erase p, (ends.getD q 0 - position q) :=
    Finset.sum_congr rfl fun q hq => by rw [Function.update_of_ne (Finset.ne_of_mem_erase hq)]
  unfold undelivered
  rw [← Finset.add_sum_erase _ _ hmem, hrest,
    ← Finset.add_sum_erase _ (fun q => ends.getD q 0 - position q) hmem, Function.update_self]
  omega

/-- At the snapshot there is no more to deliver than the topic holds. -/
theorem undelivered_snapshot (topic : Topic) (completed : Finset Nat) (position : Nat → Nat) :
    undelivered (topic.map end_offset) completed position ≤ topic.size := by
  have hle : undelivered (topic.map end_offset) completed position
      ≤ undelivered (topic.map end_offset) ∅ position := undelivered_le (Finset.empty_subset _)
  refine hle.trans ?_
  unfold undelivered Topic.size
  rw [Finset.sdiff_empty, List.length_map]
  refine Finset.sum_le_sum fun p _ => ?_
  rw [ends_getD]
  exact Nat.sub_le _ _

/-- A message is only fetched from a partition the snapshot knows. -/
theorem Fetched.lt_length {m : KafkaMessage} (hinv : Inv topic st)
    (hm : st.Fetched topic choice ends completed m) : choice < ends.length := by
  simp only [Inv, hm.phase_eq] at hinv
  rw [hinv.ends_length]
  exact hm.partition_lt

/-- **A step that goes on** never adds to the work, and lowers it unless it stalls. Seeks and
the snapshot lower it by having been counted; a check completes partitions and lowers it by one;
and a message beyond the window is delivered like any other, and completes its partition
besides. What is left are the polls that `Stalls` names, which leave the work as it is. -/
theorem rank_more (hinv : Inv topic st) (hs : st.step w topic choice = .more st') :
    st'.rank topic ≤ st.rank topic ∧ (¬ st.Stalls topic choice → st'.rank topic < st.rank topic) := by
  have htook := step_took w choice hinv
  rw [hs] at htook
  cases htook with
  | looked_up hph =>
      have hpending : (st.unsought w topic).length ≤ topic.length := by
        have hle := List.length_filter_le (fun p => (st.offsets.get? p).isNone &&
          (offsets_for_times (topic.log p) w.start_ms).isNone) (List.range topic.length)
        rwa [List.length_range] at hle
      simp only [rank, hph]
      omega
  | sought_end p rest hph =>
      simp only [rank, hph, List.length_cons]
      omega
  | snapshot hph _ hnext =>
      -- every message of the topic was counted, and the snapshot has no more of them
      rw [next_eq (Or.inl hnext)]
      have hle := undelivered_snapshot topic ((List.range topic.length).foldl
        (mark_completed_if_at_end (topic.map end_offset) st.position) ∅) st.position
      simp only [rank, hph, Option.isSome_none, List.length_nil]
      simp only [Bool.false_eq_true, if_false]
      omega
  | checked ends completed q hph _ hnext =>
      rw [next_eq (Or.inl hnext)]
      have hle : undelivered ends (mark_completed_if_at_end ends st.position completed q) st.position
          ≤ undelivered ends completed st.position :=
        undelivered_le fun p hp => mem_mark.mpr (Or.inl hp)
      simp only [rank, hph, Option.isSome_none, Option.isSome_some, if_true]
      simp only [Bool.false_eq_true, if_false]
      omega
  | waited ends completed hph hdel =>
      refine ⟨Nat.le_refl _, fun hnot => absurd ?_ hnot⟩
      -- an idle poll: the work stays, and the step is one that stalls
      simp only [Stalls, hph]
      exact Or.inl hdel
  | skipped ends completed o hph hc hdel =>
      refine ⟨?_, fun hnot => absurd ?_ hnot⟩
      · simp only [rank, advance, hph, undelivered_update_of_mem hc]
        exact Nat.le_refl _
      · simp only [Stalls, hph]
        exact Or.inr hc
  | past ends completed m hm hend _ hnext =>
      have hstep := undelivered_advance (hm.lt_length hinv) hm.not_completed hm.position_lt
      have hle : undelivered ends (insert choice completed)
            (Function.update st.position choice (st.position choice + 1))
          ≤ undelivered ends completed
            (Function.update st.position choice (st.position choice + 1)) :=
        undelivered_le (Finset.subset_insert choice completed)
      rw [next_eq (Or.inl hnext)]
      simp only [rank, advance, hm.phase_eq, Option.isSome_none]
      simp only [Bool.false_eq_true, if_false]
      omega

/-- An event that is yielded is delivered from an open partition. The check behind the `yield`
is the second of the two steps a message counts for. -/
theorem rank_yield {ev : ReplayEvent} (hinv : Inv topic st)
    (hs : st.step w topic choice = .yield ev st') : st'.rank topic < st.rank topic := by
  obtain ⟨ends, completed, m, hm, -, -, rfl⟩ := fetched_of_yield hinv hs
  have hstep := undelivered_advance (hm.lt_length hinv) hm.not_completed hm.position_lt
  simp only [rank, advance, hm.phase_eq, Option.isSome_none, Option.isSome_some, if_true]
  simp only [Bool.false_eq_true, if_false]
  omega

/-- Once taken, the snapshot stays. -/
theorem settled_more (hinv : Inv topic st) (h : st.settled = true)
    (hs : st.step w topic choice = .more st') : st'.settled = true := by
  have htook := step_took w choice hinv
  rw [hs] at htook
  cases htook with
  | looked_up hph => simp only [settled, hph, Bool.false_eq_true] at h
  | sought_end p rest hph => simp only [settled, hph, Bool.false_eq_true] at h
  | snapshot hph _ hnext =>
      rw [next_eq (Or.inl hnext)]
      rfl
  | checked ends completed q hph _ hnext =>
      rw [next_eq (Or.inl hnext)]
      rfl
  | waited ends completed hph hdel => exact h
  | skipped ends completed o hph hc hdel => exact h
  | past ends completed m hm hend _ hnext =>
      rw [next_eq (Or.inl hnext)]
      rfl

/-- Nothing is yielded before the snapshot. -/
theorem settled_yield {ev : ReplayEvent} (hinv : Inv topic st)
    (hs : st.step w topic choice = .yield ev st') : st'.settled = true := by
  obtain ⟨ends, completed, m, hm, -, -, rfl⟩ := fetched_of_yield hinv hs
  rfl

/-- The generator only raises where it is opened, on a checkpoint that does not parse. -/
theorem step_not_raise (hinv : Inv topic st) (error : StreamError) :
    st.step w topic choice ≠ .raise error := by
  intro hs
  have htook := step_took w choice hinv
  rw [hs] at htook
  have hnext : ∀ {st : KafkaStream} {ends : List Nat} {completed : Finset Nat},
      st.next topic ends completed ≠ .raise error := by
    intro st ends completed
    unfold next
    split <;> exact fun h => by cases h
  cases htook with
  | snapshot hph _ h => exact hnext h
  | checked ends completed q hph _ h => exact hnext h
  | past ends completed m hm hend _ h => exact hnext h

/-- Once the snapshot is taken, what producers write adds nothing. -/
theorem rank_produce {p : Nat} (m : KafkaMessage) (hp : p < topic.length) :
    st.rank (topic.produce p m) ≤ st.rank topic + if st.settled then 0 else 2 := by
  unfold rank settled
  rw [Topic.size_produce topic m hp, Topic.length_produce]
  cases st.phase with
  | opened =>
      simp only [Bool.false_eq_true, if_false]
      omega
  | seeking pending =>
      simp only [Bool.false_eq_true, if_false]
      omega
  | consuming ends completed resume => exact Nat.le_refl _

/-- **The generator never waits in vain**: some open partition has a message below its
snapshot. -/
theorem exists_not_stalls (hinv : Inv topic st) : ∃ choice, ¬ st.Stalls topic choice := by
  unfold Stalls
  cases hph : st.phase with
  | opened => exact ⟨0, id⟩
  | seeking pending => exact ⟨0, id⟩
  | consuming ends completed resume =>
      cases resume with
      | some q => exact ⟨0, id⟩
      | none =>
          simp only [Inv, hph] at hinv
          obtain ⟨p, hp, hopen⟩ := hinv.exists_open
          have hpos := hinv.position_lt p hp hopen (fun h' => by contradiction)
          have hend := hinv.ends_le p
          have hfetch : fetch_offset (topic.log p) (st.position p) = st.position p := by
            rw [fetch_offset, if_pos (by omega)]
          refine ⟨p, not_or.mpr ⟨?_, hopen⟩⟩
          simp only [delivery, hph, hfetch]
          rw [if_pos (by omega)]
          exact Option.some_ne_none _

/-- The loop invariant survives every step that goes on, whatever is in the window. -/
theorem Inv.step_more (hinv : Inv topic st) (hs : st.step w topic choice = .more st') :
    Inv topic st' := by
  have htook := step_took w choice hinv
  rw [hs] at htook
  cases htook with
  | looked_up hph => trivial
  | sought_end p rest hph => trivial
  | snapshot hph _ hnext =>
      have hlen : (topic.map end_offset).length = topic.length := List.length_map _
      -- completed from the start are the partitions that stand at their ends
      have hmem : ∀ p, p ∈ (List.range topic.length).foldl
            (mark_completed_if_at_end (topic.map end_offset) st.position) ∅ ↔
          p < topic.length ∧ (topic.log p).length ≤ st.position p := by
        intro p
        rw [mem_foldl_mark, hlen, ends_getD]
        simp [end_offset]
      refine ((next_spec hlen (fun p => (ends_getD topic p).le)
        (fun p hp => ((hmem p).mp hp).1) fun p hp hnot => ?_).1 hnext).2
      rw [hmem] at hnot
      rw [ends_getD]
      exact Nat.lt_of_not_le fun hle => hnot ⟨hp, hle⟩
  | checked ends completed q hph _ hnext =>
      simp only [Inv, hph] at hinv
      exact ((next_spec hinv.ends_length hinv.ends_le (fun p hp => hinv.mark_lt hp)
        fun p hp hnot => hinv.position_lt_of_mark hp hnot).1 hnext).2
  | waited ends completed hph hdel => exact hinv
  | skipped ends completed o hph hc hdel =>
      simp only [Inv, hph] at hinv
      simp only [Inv, advance, hph]
      refine ⟨hinv.ends_length, hinv.ends_le, hinv.completed_lt, fun p hp hnot hr => ?_,
        fun p hr => by contradiction, hinv.exists_open⟩
      have hne : p ≠ choice := by
        rintro rfl
        exact hnot hc
      dsimp only
      rw [Function.update_of_ne hne]
      exact hinv.position_lt p hp hnot hr
  | past ends completed m hm hend _ hnext =>
      simp only [Inv, hm.phase_eq] at hinv
      exact ((next_spec hinv.ends_length hinv.ends_le
        (fun p hp => hinv.insert_lt hm.partition_lt hp)
        fun p hp hnot => hinv.position_lt_of_insert hp hnot).1 hnext).2

end KafkaStream

/-! ## Either source

The rank of a stream, and that growth of the logs adds to it what was added to them. -/

/-- The messages both logs hold, and the seeks of the Kafka generator: no generator that is
opened has more work than that. -/
def World.work (world : World) : Nat :=
  3 * world.redis.length + (2 * world.kafka.size + world.kafka.length) + 3

namespace Stream

variable {w : Window} {world : World} {st st' : Stream} {choice : Nat}

/-- The work of a generator, whichever source it reads. -/
def rank (w : Window) (world : World) : Stream → Nat
  | .redis stream => stream.rank w world.redis
  | .kafka stream => stream.rank world.kafka

/-- The loop invariant of either generator. -/
def Live (w : Window) (world : World) : Stream → Prop
  | .redis stream => RedisStream.Inv w world.redis stream
  | .kafka stream => stream.Inv world.kafka

/-- Only a Kafka generator can stall. -/
def Stalls (world : World) (choice : Nat) : Stream → Prop
  | .redis _ => False
  | .kafka stream => stream.Stalls world.kafka choice

instance (world : World) (choice : Nat) (st : Stream) : Decidable (st.Stalls world choice) := by
  cases st with
  | redis stream => exact instDecidableFalse
  | kafka stream => exact inferInstanceAs (Decidable (stream.Stalls world.kafka choice))

/-- What an entry added to the Redis stream costs the generator. -/
def xadd_cost (w : Window) (e : RedisEntry) : Stream → Nat
  | .redis _ => if e.id.ms ≤ w.end_ms then 3 else 0
  | .kafka _ => 0

/-- What a message written to the topic costs it. -/
def produce_cost : Stream → Nat
  | .redis _ => 0
  | .kafka stream => if stream.settled then 0 else 2

/-- The two sources together, as the worker sees them. Redis has no step that stalls: an empty
page ends its generator. -/
theorem Live.step_more (h : Live w world st) (hs : st.step w world choice = .more st') :
    Live w world st' ∧ st'.rank w world ≤ st.rank w world ∧
      (¬ st.Stalls world choice → st'.rank w world < st.rank w world) := by
  cases st with
  | redis stream =>
      obtain ⟨stream', hstep, rfl⟩ := more_of_lift hs
      have hlt := RedisStream.rank_more h hstep
      exact ⟨(RedisStream.step_more h hstep).1, Nat.le_of_lt hlt, fun _ => hlt⟩
  | kafka stream =>
      obtain ⟨stream', hstep, rfl⟩ := more_of_lift hs
      exact ⟨KafkaStream.Inv.step_more h hstep, KafkaStream.rank_more h hstep⟩

/-- An event takes work away, from either source. Each one that is replayed brings the job
nearer to its end. -/
theorem Live.step_yield (hsorted : world.Sorted) (h : Live w world st) {ev : ReplayEvent}
    (hs : st.step w world choice = .yield ev st') :
    Live w world st' ∧ st'.rank w world < st.rank w world := by
  cases st with
  | redis stream =>
      obtain ⟨stream', hstep, rfl⟩ := yield_of_lift hs
      exact ⟨(RedisStream.step_yield hsorted.redis h hstep).1,
        RedisStream.rank_yield hsorted.redis h hstep⟩
  | kafka stream =>
      obtain ⟨stream', hstep, rfl⟩ := yield_of_lift hs
      exact ⟨(KafkaStream.step_yield h hstep).1, KafkaStream.rank_yield h hstep⟩

/-- An open generator of this model does not raise: the calls it makes are taken to succeed,
and a call that fails is the worker's exception. -/
theorem Live.step_not_raise (h : Live w world st) (error : StreamError) :
    st.step w world choice ≠ .raise error := by
  intro hs
  cases st with
  | redis stream =>
      have htook := RedisStream.step_took w world.redis stream
      simp only [step] at hs
      cases hstep : stream.step w world.redis with
      | raise e =>
          rw [hstep] at htook
          cases htook
      | _ => rw [hstep] at hs; cases hs
  | kafka stream =>
      simp only [step] at hs
      cases hstep : stream.step w world.kafka choice with
      | raise e => exact KafkaStream.step_not_raise h e hstep
      | _ => rw [hstep] at hs; cases hs

/-- The generator reads Kafka and has taken its snapshot. -/
def settled : Stream → Bool
  | .redis _ => false
  | .kafka stream => stream.settled

/-- The snapshot is not given up while the generator goes on -/
theorem Live.settled_more (h : Live w world st) (hsettled : st.settled = true)
    (hs : st.step w world choice = .more st') : st'.settled = true := by
  cases st with
  | redis stream => cases hsettled
  | kafka stream =>
      obtain ⟨stream', hstep, rfl⟩ := more_of_lift hs
      exact KafkaStream.settled_more h hsettled hstep

/-- or yields, so a settled generator stays so to its end. -/
theorem Live.settled_yield (h : Live w world st) (hsettled : st.settled = true) {ev : ReplayEvent}
    (hs : st.step w world choice = .yield ev st') : st'.settled = true := by
  cases st with
  | redis stream => cases hsettled
  | kafka stream =>
      obtain ⟨stream', hstep, rfl⟩ := yield_of_lift hs
      exact KafkaStream.settled_yield h hstep

/-- What is added to the other source costs a Kafka generator nothing, -/
theorem xadd_cost_of_settled (h : st.settled = true) (e : RedisEntry) : st.xadd_cost w e = 0 := by
  cases st with
  | redis stream => cases h
  | kafka stream => rfl

/-- and neither does a write to the topic once the snapshot is taken: the message lies above it. -/
theorem produce_cost_of_settled (h : st.settled = true) : st.produce_cost = 0 := by
  cases st with
  | redis stream => rfl
  | kafka stream =>
      simp only [settled] at h
      simp only [produce_cost, h, if_true]

/-- Sources that grow keep the invariant. They may add to the work, as the next two lemmas say. -/
theorem Live.grow {world' : World} (h : Live w world st) (hg : world.Grows world') :
    Live w world' st := by
  cases st with
  | redis stream =>
      obtain ⟨es, hes, -⟩ := hg.redis
      simp only [Live, hes]
      exact RedisStream.Inv.append h
  | kafka stream => exact KafkaStream.Inv.grow h hg.partitions hg.kafka

/-- An entry adds what it costs. A generator over Redis has no snapshot and follows the stream
as it grows, so its work is not bounded by what there was when it was opened. -/
theorem rank_xadd (e : RedisEntry) :
    st.rank w (world.xadd e) ≤ st.rank w world + st.xadd_cost w e := by
  cases st with
  | redis stream => exact RedisStream.rank_append e
  | kafka stream => exact Nat.le_refl _

/-- A message adds what it costs. -/
theorem rank_produce {p : Nat} (m : KafkaMessage) (hp : p < world.kafka.length) :
    st.rank w (world.produce p m) ≤ st.rank w world + st.produce_cost := by
  cases st with
  | redis stream => exact Nat.le_refl _
  | kafka stream => exact KafkaStream.rank_produce m hp

/-- A generator that opens satisfies its invariant, and its work is bounded. -/
theorem open_live {source : SourceName} {position : Nat → Nat} {cp : Option Checkpoint}
    (h : Stream.open source world position cp = .ok st) :
    Live w world st ∧ st.rank w world ≤ world.work := by
  obtain ⟨stream, -, ho, rfl⟩ | ⟨stream, -, ho, rfl⟩ := open_cases h
  · refine ⟨RedisStream.open_inv ho, ?_⟩
    have hbatch : stream.batch = none := by
      obtain ⟨-, rfl⟩ | ⟨c, -, rfl⟩ := RedisStream.open_cases ho <;> rfl
    have hle : (stream.outstanding w world.redis).length ≤ world.redis.length :=
      List.length_filter_le _ _
    simp only [rank, RedisStream.rank, hbatch, World.work]
    omega
  · obtain ⟨hph, -, -⟩ := KafkaStream.open_spec ho
    refine ⟨by simp only [Live, KafkaStream.Inv, hph], ?_⟩
    simp only [rank, KafkaStream.rank, hph, World.work]
    omega

/-- Whether a checkpoint can be opened does not depend on where the consumer was left. -/
theorem open_ok_iff {source : SourceName} {position position' : Nat → Nat} {cp : Option Checkpoint} :
    (∃ st, Stream.open source world position cp = .ok st) ↔
      ∃ st, Stream.open source world position' cp = .ok st := by
  have hone : ∀ {position position' : Nat → Nat}, (∃ st, Stream.open source world position cp = .ok st) →
      ∃ st, Stream.open source world position' cp = .ok st := by
    rintro position position' ⟨st, h⟩
    cases source with
    | redis => exact ⟨st, h⟩
    | kafka =>
        cases cp with
        | none => exact ⟨_, rfl⟩
        | some c =>
            simp only [Stream.open, KafkaStream.open] at h ⊢
            cases hc : parse_checkpoint c with
            | ok offsets => exact ⟨_, rfl⟩
            | error e =>
                simp only [hc] at h ⊢
                by_cases hempty : world.kafka.isEmpty = true
                · rw [if_pos hempty]
                  exact ⟨_, rfl⟩
                · rw [if_neg hempty] at h
                  cases h
  exact ⟨hone, hone⟩

/-- There is always a partition to deliver from with which the generator gets on. So a consumer
that keeps delivering from the others is the only thing that can hold it up. -/
theorem exists_not_stalls (h : Live w world st) : ∃ choice, ¬ st.Stalls world choice := by
  cases st with
  | redis stream => exact ⟨0, id⟩
  | kafka stream => exact KafkaStream.exists_not_stalls h

end Stream

/-- The bound on a generator that is yet to be opened grows with the sources, -/
theorem World.work_xadd (world : World) (e : RedisEntry) : (world.xadd e).work = world.work + 3 := by
  simp only [work, xadd, List.length_append, List.length_cons, List.length_nil]
  omega

/-- by what a new message will cost it. -/
theorem World.work_produce (world : World) {p : Nat} (m : KafkaMessage)
    (hp : p < world.kafka.length) : (world.produce p m).work = world.work + 2 := by
  simp only [work, produce, Topic.size_produce world.kafka m hp, Topic.length_produce]
  omega

end WalStream.Source

/-
`ReplaySourceRouter`: Redis or Kafka, for the same job.

The ingestor writes every record to both: to the Redis stream under an id, and to the Kafka
partition its table is hashed to. `topic_of` is the topic of a history in which the two
copies of a record carry the same millisecond. The router looks at the clock and the window
alone. It does not look at the stream, whose oldest entries `MAXLEN` takes away, nor does a
job that is resumed on the source it was started on.
-/
import WalStream.Job.Worker
import WalStream.Source.RedisWindow
import WalStream.Source.KafkaWindow

set_option autoImplicit false

namespace WalStream.Job

open Lib Source

/-! ## One history, two sources

The ingestor sends each record to both stores. The topic is computed from the ingest history
here, partition by partition, and with it the checkpoint that a job over Kafka would have where
one over Redis stands; the two generators can then be asked the same question. -/

/-- The message `publish_to_kafka` sends for the record of an entry. -/
def message_of (e : RedisEntry) : KafkaMessage := ⟨e.id.ms, e.record⟩

/-- The entries whose records went to partition `p`. The producer picks the partition by the
key, which is the table. -/
def entries_of (partition : String → Nat) (history : List RedisEntry) (p : Nat) :
    List RedisEntry :=
  history.filter fun e => decide (partition e.record.table = p)

/-- The topic of `n` partitions that an ingest history leaves. -/
def topic_of (n : Nat) (partition : String → Nat) (history : List RedisEntry) : Topic :=
  (List.range n).map fun p => (entries_of partition history p).map message_of

/-- The records of a table among the events, in order. -/
def records_of (table : String) (events : List ReplayEvent) : List ChangeRecord :=
  (events.map fun ev => ev.payload).filter fun r => decide (r.table = table)

/-- What a job over Kafka would have recorded for a partition once it had processed the events
of the window up to the entry `c`: the offset of the last of them, if there is one. -/
def RecordedUpTo (w : Window) (c : StreamId) (entries : List RedisEntry) : Option Nat → Prop
  | some k => ∃ e, entries[k]? = some e ∧ w.start_ms ≤ e.id.ms ∧ e.id ≤ c ∧
      ∀ o e', k < o → entries[o]? = some e' → c < e'.id
  | none => ∀ e ∈ entries, w.start_ms ≤ e.id.ms → c < e.id

/-- The Kafka checkpoint of a job that stands where the Redis checkpoint says: none for none,
and the map of the offsets for the id of an event of the window. -/
def SamePosition (w : Window) (partition : String → Nat) (history : List RedisEntry) :
    Option StreamId → Option Checkpoint → Prop
  | none, cp => cp = none
  | some c, cp => ∃ offsets, cp = some (.json offsets) ∧ w.contains c.ms ∧
      ∀ p, RecordedUpTo w c (entries_of partition history p) (offsets.get? p)

/-! ## What Kafka yields of it

All records of a table are in one partition, so a filter on the table finds the same subsequence
in a partition as in the history. -/

section

variable {n : Nat} {partition : String → Nat} {history : List RedisEntry} {w : Window}

/-- The partition of an ingest history, as the entries that went there. -/
theorem log_topic_of (p : Nat) (hp : p < n) :
    (topic_of n partition history).log p = (entries_of partition history p).map message_of := by
  rw [Topic.log, topic_of, List.getD_eq_getElem _ _ (by simpa using hp)]
  simp

/-- Timestamps follow the ids, so the topic is sorted where the stream is. -/
theorem kafkaSorted_topic_of (hsorted : RedisSorted history) :
    KafkaSorted (topic_of n partition history) := by
  intro p
  by_cases hp : p < n
  · rw [log_topic_of p hp, List.pairwise_map]
    exact (hsorted.sublist List.filter_sublist).imp fun hlt =>
      StreamId.ms_le_of_le (StreamId.le_of_lt hlt)
  · rw [Topic.log, topic_of, List.getD_eq_default _ _ (by simpa using hp)]
    exact List.Pairwise.nil

/-- **What Kafka is asked for**: the message at an offset is in range and not past the window
exactly when its entry is wanted of Redis. -/
theorem inRange_notPast_eq {p o : Nat} {e : RedisEntry} {cp : Option StreamId}
    {kcp : Option Checkpoint} (hsorted : RedisSorted history)
    (hcp : SamePosition w partition history cp kcp)
    (he : (entries_of partition history p)[o]? = some e) :
    (KafkaWindow.inRange kcp w ((entries_of partition history p).map message_of) p o &&
      KafkaWindow.notPast w ((entries_of partition history p).map message_of) o)
      = RedisWindow.wanted w cp e := by
  have hes : RedisSorted (entries_of partition history p) := hsorted.sublist List.filter_sublist
  have hlog : ((entries_of partition history p).map message_of).Pairwise
      fun a b => a.timestamp ≤ b.timestamp := by
    rw [List.pairwise_map]
    exact hes.imp fun hlt => StreamId.ms_le_of_le (StreamId.le_of_lt hlt)
  have hm : ((entries_of partition history p).map message_of)[o]? = some (message_of e) := by
    rw [List.getElem?_map, he, Option.map_some]
  rw [KafkaWindow.notPast_of_getElem? hm]
  -- without an offset for the partition it is read from the start of the window
  have hfrom : KafkaWindow.checkpointed kcp p = none →
      KafkaWindow.inRange kcp w ((entries_of partition history p).map message_of) p o
        = decide (w.start_ms ≤ e.id.ms) := by
    intro hnone
    rw [KafkaWindow.inRange, hnone]
    cases hf : offsets_for_times ((entries_of partition history p).map message_of) w.start_ms with
    | some f => exact decide_eq_decide.mpr (le_iff_of_offsets_for_times hlog hf hm)
    | none =>
        have hlt : e.id.ms < w.start_ms := lt_of_offsets_for_times_none hf hm
        exact (decide_eq_false (by omega)).symm
  cases cp with
  | none =>
      obtain rfl : kcp = none := hcp
      rw [hfrom rfl]
      rfl
  | some c =>
      obtain ⟨offsets, rfl, hwin, hrec⟩ := hcp
      have hp := hrec p
      have hin : KafkaWindow.inRange (some (.json offsets)) w
          ((entries_of partition history p).map message_of) p o = decide (c < e.id) := by
        cases hget : offsets.get? p with
        | some k =>
            rw [hget] at hp
            obtain ⟨ek, hek, hstart, hle, hafter⟩ := hp
            rw [KafkaWindow.inRange, KafkaWindow.checkpointed, hget]
            refine decide_eq_decide.mpr ⟨fun hko => hafter o e hko he, fun hlt => ?_⟩
            -- an entry up to `k` is not after `c`
            by_contra hko
            have heo : e.id ≤ ek.id := by
              obtain ⟨ho, rfl⟩ := List.getElem?_eq_some_iff.mp he
              obtain ⟨hk, rfl⟩ := List.getElem?_eq_some_iff.mp hek
              rcases Nat.eq_or_lt_of_le (Nat.not_lt.mp hko) with rfl | hok
              · exact StreamId.le_refl _
              · exact StreamId.le_of_lt (List.pairwise_iff_getElem.mp hes _ _ ho hk hok)
            exact StreamId.lt_irrefl _ (StreamId.lt_of_le_of_lt (StreamId.le_trans heo hle) hlt)
        | none =>
            rw [hget] at hp
            rw [hfrom hget]
            refine decide_eq_decide.mpr ⟨hp e (List.mem_of_getElem? he), fun hlt => ?_⟩
            exact hwin.1.trans (StreamId.ms_le_of_le (StreamId.le_of_lt hlt))
      rw [hin]
      rfl

/-- The records expected of a partition are those of its entries that are wanted of Redis. -/
theorem map_payload_expected {p : Nat} {cp : Option StreamId} {kcp : Option Checkpoint}
    (hsorted : RedisSorted history) (hcp : SamePosition w partition history cp kcp) (hp : p < n) :
    (KafkaWindow.expected kcp w ((topic_of n partition history).log p) p).map
        (fun ev => ev.payload)
      = ((entries_of partition history p).filter (RedisWindow.wanted w cp)).map
        fun e => e.record := by
  rw [log_topic_of p hp]
  have hread : ∀ o, KafkaWindow.eventAt ((entries_of partition history p).map message_of) p o
      = (entries_of partition history p)[o]?.map fun e => ⟨.kafka p o, e.record⟩ := by
    intro o
    rw [KafkaWindow.eventAt, List.getElem?_map, Option.map_map]
    rfl
  rw [KafkaWindow.expected, end_offset, List.length_map, funext hread]
  exact map_filterMap_range_filter (fun o e he => inRange_notPast_eq hsorted hcp he)
    (fun _ _ => rfl)

/-- The records of a table all come from the partition of the table. -/
theorem records_of_filter {events : List ReplayEvent} {table : String}
    (hfrom : ∀ ev ∈ events, ∃ p, KafkaWindow.isFrom p ev = true ∧ partition ev.table = p) :
    records_of table events =
      records_of table (events.filter (KafkaWindow.isFrom (partition table))) := by
  have hpart : ∀ ev ∈ events, ev.table = table → KafkaWindow.isFrom (partition table) ev = true := by
    rintro ev hev rfl
    obtain ⟨p, hp, hpart⟩ := hfrom ev hev
    rw [hpart, hp]
  simp only [records_of, List.filter_map, List.filter_filter]
  congr 1
  refine List.filter_congr fun ev hev => ?_
  by_cases htable : ev.payload.table = table
  · simp [htable, hpart ev hev htable]
  · simp [htable]

/-- **The records Kafka yields** of a table are those of the entries wanted of Redis. -/
theorem records_of_kafka {cp : Option StreamId} {kcp : Option Checkpoint} {position : Nat → Nat}
    {kst : KafkaStream} {tr : List (KafkaWindow.State × KafkaWindow.Action)}
    {ks : KafkaWindow.State} (hpart : ∀ table, partition table < n)
    (hsorted : RedisSorted history) (hcp : SamePosition w partition history cp kcp)
    (hopen : KafkaStream.open (topic_of n partition history) position kcp = .ok kst)
    (hrun : Run (KafkaWindow.step w) (KafkaWindow.State.initial (topic_of n partition history) kst)
      tr ks)
    (hafter : StepsMeet KafkaWindow.AfterSnapshot tr) (hret : ks.returned = true)
    (table : String) :
    records_of table ks.yielded =
      records_of table ((history.filter (RedisWindow.wanted w cp)).map RedisWindow.event) := by
  have hnotredis : ∀ id, kcp ≠ some (.id (.redis id)) := by
    intro id heq
    cases cp with
    | none => rw [show kcp = none from hcp] at heq; cases heq
    | some c =>
        obtain ⟨offsets, rfl, -⟩ := hcp
        cases heq
  obtain ⟨kst', hopen', hphase, hoff⟩ := KafkaWindow.open_checkpointed (topic_of n partition history) position hnotredis
  rw [hopen, Except.ok.injEq] at hopen'
  subst hopen'
  have hI := KafkaWindow.inv_of_run (kafkaSorted_topic_of hsorted) hphase hoff hrun hafter
  have hrecords : ∀ p < n, (ks.yieldedFrom p).map (fun ev => ev.payload)
      = ((entries_of partition history p).filter (RedisWindow.wanted w cp)).map
        fun e => e.record := by
    intro p hp
    rw [hI.yieldedFrom_eq hret p, map_payload_expected hsorted hcp hp]
  -- an event of partition `p` carries a record of `p`
  have hfrom : ∀ ev ∈ ks.yielded, ∃ p, KafkaWindow.isFrom p ev = true ∧
      partition ev.table = p := by
    intro ev hev
    obtain ⟨p, hp, hisFrom⟩ := hI.from_topic ev hev
    rw [topic_of, List.length_map, List.length_range] at hp
    have hmem : ev.payload ∈ (ks.yieldedFrom p).map fun ev => ev.payload :=
      List.mem_map_of_mem (List.mem_filter.mpr ⟨hev, hisFrom⟩)
    rw [hrecords p hp, List.mem_map] at hmem
    obtain ⟨e, he, hrec⟩ := hmem
    have hpe := (List.mem_filter.mp (List.mem_filter.mp he).1).2
    refine ⟨p, hisFrom, ?_⟩
    rw [ReplayEvent.table, ← hrec]
    exact of_decide_eq_true hpe
  rw [records_of_filter hfrom]
  have hpartition := hrecords (partition table) (hpart table)
  rw [KafkaWindow.State.yieldedFrom] at hpartition
  rw [records_of, hpartition, records_of, List.map_map]
  simp only [List.filter_map, entries_of, List.filter_filter]
  -- a record of the table is in the partition of the table
  congr 1
  refine List.filter_congr fun e _ => ?_
  by_cases htable : e.record.table = table
  · simp [RedisWindow.event, htable]
  · simp [RedisWindow.event, htable]

end

/-! ## When Redis yields the same

Redis can lack what `MAXLEN` has taken. What is gone and was never asked for does no harm: the
condition is on the pages the generator asks for, and it is exact. -/

/-- Ids that increase are not repeated. -/
theorem nodup_of_sorted {es : List RedisEntry} (hsorted : RedisSorted es) : es.Nodup := by
  refine List.Pairwise.imp ?_ hsorted
  rintro a b hlt rfl
  exact StreamId.lt_irrefl _ hlt

/-- A list that lacks one of the entries of a table has fewer of them. -/
theorem records_of_ne {done range : List RedisEntry} {e : RedisEntry} (hdone : RedisSorted done)
    (hsub : done ⊆ range) (he : e ∈ range) (hnot : e ∉ done) :
    records_of e.record.table (done.map RedisWindow.event)
      ≠ records_of e.record.table (range.map RedisWindow.event) := by
  have hrecords : ∀ es : List RedisEntry, records_of e.record.table (es.map RedisWindow.event)
      = (es.filter fun x => decide (x.record.table = e.record.table)).map fun x => x.record := by
    intro es
    simp only [records_of, List.map_map, List.filter_map]
    rfl
  intro heq
  rw [hrecords, hrecords] at heq
  have hlen := congrArg List.length heq
  rw [List.length_map, List.length_map] at hlen
  have hown : ∀ {es : List RedisEntry} {x : RedisEntry},
      x ∈ es.filter (fun x => decide (x.record.table = e.record.table)) ↔
        x ∈ es ∧ x.record.table = e.record.table := by
    intro es x
    rw [List.mem_filter, decide_eq_true_eq]
  -- with the missing entry in front it would still fit into the range
  have hnodup : (e :: done.filter fun x =>
      decide (x.record.table = e.record.table)).Nodup :=
    List.nodup_cons.mpr ⟨fun hmem => hnot (hown.mp hmem).1, (nodup_of_sorted hdone).filter _⟩
  have hsubset : (e :: done.filter fun x => decide (x.record.table = e.record.table))
      ⊆ range.filter fun x => decide (x.record.table = e.record.table) := by
    intro x hx
    rcases List.mem_cons.mp hx with rfl | hx
    · exact hown.mpr ⟨he, rfl⟩
    · exact hown.mpr ⟨hsub (hown.mp hx).1, (hown.mp hx).2⟩
  have hle := (hnodup.subperm hsubset).length_le
  rw [List.length_cons] at hle
  omega

/-- **Redis agrees with Kafka**, table by table, exactly when the job never asked Redis for a
page with an entry of it trimmed. The generator of Redis may be resumed at an event of the
window, with entries added and trimmed before and meanwhile; the one of Kafka is resumed at
the same event, on the topic of the history the last `XRANGE` saw. -/
theorem redis_agrees_iff (n : Nat) (partition : String → Nat) (history : List RedisEntry)
    (trimmed : Nat) (w : Window) (cp : Option StreamId) (kcp : Option Checkpoint)
    (position : Nat → Nat) (st : RedisStream) (kst : KafkaStream)
    {tr : List (RedisWindow.State × RedisWindow.Action)} {s : RedisWindow.State}
    {ktr : List (KafkaWindow.State × KafkaWindow.Action)} {ks : KafkaWindow.State}
    (hpart : ∀ table, partition table < n) (hsorted : RedisSorted history)
    (hopen : RedisStream.open (RedisWindow.checkpoint_of cp) = .ok st)
    (hrun : Run (RedisWindow.step w) (RedisWindow.State.initial history trimmed st) tr s)
    (hret : s.returned = true) (hcp : SamePosition w partition s.seen cp kcp)
    (hkopen : KafkaStream.open (topic_of n partition s.seen) position kcp = .ok kst)
    (hkrun : Run (KafkaWindow.step w)
      (KafkaWindow.State.initial (topic_of n partition s.seen) kst) ktr ks)
    (hafter : StepsMeet KafkaWindow.AfterSnapshot ktr) (hkret : ks.returned = true) :
    (∀ table, records_of table s.yielded = records_of table ks.yielded) ↔
      StepsMeet (RedisWindow.NoneLost w) tr := by
  have hinitial : RedisWindow.Paging w (st.bound w) (RedisWindow.State.initial history trimmed st) :=
    .initial hopen hsorted
  have hbase : RedisWindow.Base w (st.bound w) s := hrun.invariant (C := fun _ _ => True)
    (fun _ _ _ hI _ hs => hI.step hs) hinitial.base (fun _ _ => trivial)
  have hseen : RedisSorted s.seen := hbase.sorted.sublist hbase.seen_prefix.sublist
  have hkafka := records_of_kafka hpart hseen hcp hkopen hkrun hafter hkret
  have hcases := RedisWindow.yielded_or_missing hinitial hrun hret
  rw [RedisWindow.xrange_eq_filter_wanted hopen] at hcases
  rcases hcases with ⟨htr, hall⟩ | ⟨htr, done, hyielded, hdone, hsub, e, he, hnot⟩
  · exact iff_of_true (fun table => by rw [hkafka, hall]) htr
  · refine iff_of_false (fun hsame => ?_) htr
    have htable := hsame e.record.table
    rw [hkafka, hyielded] at htable
    exact records_of_ne hdone hsub he hnot htable

/-! ### A history of two entries -/

def twoEntries : List RedisEntry :=
  [⟨⟨10, 0⟩, sampleRecord "a"⟩, ⟨⟨12, 0⟩, sampleRecord "b"⟩]

/-- The two entries of the sample. -/
theorem redisSorted_twoEntries : RedisSorted twoEntries := by
  simp [RedisSorted, twoEntries, StreamId.lt_def]

/-- The first entry is trimmed, but it has been processed: a job resumed behind it gets from
Redis what it would get from Kafka. -/
theorem redis_agrees_iff_resumed :
    ∃ (s : RedisWindow.State) (ks : KafkaWindow.State),
      s.yielded = [⟨.redis ⟨12, 0⟩, sampleRecord "b"⟩] ∧ ks.returned = true ∧
      ∀ table, records_of table s.yielded = records_of table ks.yielded := by
  have hrun : ∃ tr s, Run (RedisWindow.step ⟨10, 20⟩) (RedisWindow.State.initial twoEntries 1
      { cursor := some ⟨10, 0⟩, resumed := true, batch := none, seen := 0 }) tr s ∧
      StepsMeet (RedisWindow.NoneLost ⟨10, 20⟩) tr ∧
      (s.returned = true ∧ s.seen = twoEntries ∧
        s.yielded = [⟨.redis ⟨12, 0⟩, sampleRecord "b"⟩]) :=
    exists_run_meeting_of_exec [.pull, .pull, .pull] (by decide) (by decide)
  obtain ⟨tr, s, hrun, hkept, hret, hseen, hyielded⟩ := hrun
  have hkrun : ∃ ktr ks, Run (KafkaWindow.step ⟨10, 20⟩)
      (KafkaWindow.State.initial (topic_of 1 (fun _ => 0) twoEntries)
        { offsets := Dict.empty.set 0 0, position := fun _ => 0, phase := .opened }) ktr ks ∧
      StepsMeet KafkaWindow.AfterSnapshot ktr ∧ ks.returned = true :=
    exists_run_meeting_of_exec [.pull 0, .pull 0, .pull 0, .pull 0]
      ⟨trivial, fun _ _ => ⟨trivial, fun _ _ => ⟨trivial, fun _ _ => ⟨trivial, fun _ _ =>
        trivial⟩⟩⟩⟩ (by decide)
  obtain ⟨ktr, ks, hkrun, hafter, hkret⟩ := hkrun
  have hposition : SamePosition ⟨10, 20⟩ (fun _ => 0) s.seen (some ⟨10, 0⟩)
      (some (.json (Dict.empty.set 0 0))) := by
    rw [hseen]
    refine ⟨_, rfl, by decide, fun p => ?_⟩
    rw [Dict.get?_set]
    split
    · rename_i hp
      subst hp
      refine ⟨⟨⟨10, 0⟩, sampleRecord "a"⟩, rfl, by decide, by decide, ?_⟩
      intro o e ho he
      obtain ⟨hlt, rfl⟩ := List.getElem?_eq_some_iff.mp he
      obtain rfl : o = 1 := by
        have hlen : (entries_of (fun _ => 0) twoEntries 0).length = 2 := by decide
        omega
      exact (by decide : (⟨10, 0⟩ : StreamId) < ⟨12, 0⟩)
    · rename_i hp
      intro e he
      exact absurd (of_decide_eq_true (List.mem_filter.mp he).2).symm hp
  refine ⟨s, ks, hyielded, hkret, (redis_agrees_iff 1 (fun _ => 0) twoEntries 1 ⟨10, 20⟩
    (some ⟨10, 0⟩) (some (.json (Dict.empty.set 0 0))) (fun _ => 0) _ _ (fun _ => Nat.one_pos)
    redisSorted_twoEntries rfl hrun hret hposition rfl ?_ hafter hkret).mpr hkept⟩
  rw [hseen]
  exact hkrun

/-- The default settings, with a window that ended ten milliseconds ago. -/
def recent_config : Config :=
  { window := ⟨10, 20⟩,
    job_lease_duration := 300000,
    max_event_retries := 3,
    redis_replay_threshold_ms := 3600000 }

/-- `MAXLEN` has taken the first entry of the window, the router picks Redis all the same, and
the replay lacks the event that Kafka still has. -/
theorem trimmed_replay_is_shorter :
    get_source recent_config 30 = .redis ∧
    (∃ tr s, Run (RedisWindow.step ⟨10, 20⟩) (RedisWindow.State.initial twoEntries 1
        { cursor := none, resumed := false, batch := none, seen := 0 }) tr s ∧
      s.returned = true ∧ s.seen = twoEntries ∧
      records_of "public.t" s.yielded = [sampleRecord "b"]) ∧
    ∃ tr s, Run (KafkaWindow.step ⟨10, 20⟩)
        (KafkaWindow.State.initial (topic_of 1 (fun _ => 0) twoEntries)
          { offsets := Dict.empty, position := fun _ => 0, phase := .opened }) tr s ∧
      s.returned = true ∧
      records_of "public.t" s.yielded = [sampleRecord "a", sampleRecord "b"] :=
  ⟨by decide, exists_run_of_exec [.pull, .pull, .pull] (by decide),
    exists_run_of_exec [.pull 0, .pull 0, .pull 0, .pull 0, .pull 0, .pull 0] (by decide)⟩

end WalStream.Job
